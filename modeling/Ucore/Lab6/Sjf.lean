/-
  The shortest-job-first scheduler of lab 6 (`kern/schedule/sjf_sched.c`), with `lab6_set_expected`.

  Processes are elements of `P`.  `waiting` is not in the source: the processes in the run queue, in
  the order in which they were enqueued.  A function returns `none` if an assertion fails, or if the
  rounds given to its loop are not enough.

  * `Sjf.Queued`: the run list is `waiting`, sorted by the expected lengths, and stable;
  * `sjf_order`: it is so in every state reached, and the process that is picked is the one that has
    waited longest of those with the least expected length.
-/
import Ucore.Lib.Machine
import Ucore.Lib.StableQueue
import Ucore.Libs.List
import Mathlib.Data.BitVec
import Mathlib.Data.Fin.VecNotation

namespace Ucore

open Intrusive

namespace Sjf

/-- A node of the run list: `rq->run_list`, or the `run_link` of a process. -/
inductive Le (P : Type) where
  | runList
  | runLink (p : P)
  deriving DecidableEq

/-- `onRq p` is `proc->rq == rq`. -/
structure Sys (P : Type) where
  links : Links (Le P)
  sjfExpected : P → BitVec 32
  onRq : P → Bool
  procNum : ℕ
  current : P
  idleproc : P
  waiting : List P

/-! ## The code -/

namespace Sys

variable {P : Type} [DecidableEq P] (s : Sys P)

/-- `mylen`, `plen`: an unknown length counts as the largest one. -/
def length (p : P) : ℕ := if s.sjfExpected p = 0 then 2 ^ 32 - 1 else (s.sjfExpected p).toNat

/-- The loop of `sjf_enqueue`: the node before which a process of length `mylen` is linked in. -/
def findGreater (mylen : ℕ) : ℕ → Le P → Option (Le P)
  | 0, _ => none
  | _ + 1, .runList => some .runList
  | n + 1, .runLink p =>
    if mylen < s.length p then some (.runLink p)
    else findGreater mylen n (listNext s.links (.runLink p))

/-- `sjf_enqueue` -/
def sjfEnqueue (proc : P) : Option (Sys P) :=
  if listEmpty s.links (.runLink proc) = true then
    (s.findGreater (s.length proc) (s.procNum + 1) (listNext s.links .runList)).map fun le =>
      { s with
        links := listAddBefore s.links le (.runLink proc)
        onRq := Function.update s.onRq proc true
        procNum := s.procNum + 1
        waiting := s.waiting ++ [proc] }
  else none

/-- `sjf_dequeue` -/
def sjfDequeue (proc : P) : Option (Sys P) :=
  if listEmpty s.links (.runLink proc) = false ∧ s.onRq proc = true then
    some { s with
      links := listDelInit s.links (.runLink proc)
      procNum := s.procNum - 1
      waiting := s.waiting.erase proc }
  else none

/-- `sjf_pick_next` -/
def sjfPickNext : Option P :=
  match listNext s.links .runList with
  | .runList => none
  | .runLink p => some p

/-- The end of `schedule`: the process that is picked leaves the run queue and runs. -/
def switch : Option (Sys P) :=
  match s.sjfPickNext with
  | none => some { s with current := s.idleproc }
  | some next => (s.sjfDequeue next).map fun s => { s with current := next }

/-- `lab6_set_expected` -/
def lab6SetExpected (expected : BitVec 32) : Sys P :=
  { s with sjfExpected := Function.update s.sjfExpected s.current expected }

end Sys

/-! ## The machine -/

inductive Op (P : Type) where
  | enqueue (p : P)
  | switch
  | setExpected (expected : BitVec 32)

section
variable {P : Type} [DecidableEq P]

def Sys.step (s : Sys P) : Op P → Option (Sys P)
  | .enqueue p => s.sjfEnqueue p
  | .switch => s.switch
  | .setExpected n => some (s.lab6SetExpected n)

/-- A process is enqueued once, and the one that sets its length is not in the queue. -/
def Legal (s : Sys P) : Op P → Prop
  | .enqueue p => p ∉ s.waiting
  | .switch => True
  | .setExpected _ => s.current ∉ s.waiting

instance (s : Sys P) (op : Op P) : Decidable (Legal s op) := by
  cases op <;> unfold Legal <;> infer_instance

/-- After `sjf_init`; `alloc_proc` has initialised the links of the processes. -/
def Start (s : Sys P) : Prop :=
  Circ s.links .runList [] ∧ (∀ p, listEmpty s.links (.runLink p) = true) ∧ s.procNum = 0 ∧
    s.waiting = []

def machine (P : Type) [DecidableEq P] : Machine (Sys P) (Op P) where
  Init := Start
  Legal := Legal
  step := Sys.step

instance (s : Sys P) (op : Op P) : Decidable ((machine P).Legal s op) :=
  inferInstanceAs (Decidable (Legal s op))

/-! ## The run list -/

/-- The run list is `q`. -/
structure Queued (s : Sys P) (q : List P) : Prop where
  ring : Circ s.links .runList (q.map .runLink)
  unlinked : ∀ p ∉ q, listEmpty s.links (.runLink p) = true
  onRq : ∀ p ∈ q, s.onRq p = true
  num : s.procNum = q.length
  order : StableQueue s.length q s.waiting

variable {s s' : Sys P} {p : P} {q : List P}

namespace Queued

theorem nodup (h : Queued s q) : q.Nodup := h.ring.nodup_tail.of_map _

/-- The loop stops behind the processes that are not longer. -/
theorem findGreater (h : Queued s q) (mylen : ℕ) : ∀ {ys xs : List P} {n : ℕ},
    q = xs ++ ys → ys.length < n → (∀ b ∈ xs, s.length b ≤ mylen) →
    ∃ xs' ys', q = xs' ++ ys' ∧ (∀ b ∈ xs', s.length b ≤ mylen) ∧ (∀ b ∈ ys', mylen < s.length b) ∧
      s.findGreater mylen n ((ys.map Le.runLink ++ [Le.runList]).head (by simp)) =
        some ((ys'.map Le.runLink ++ [Le.runList]).head (by simp))
  | [], xs, n + 1, hq, _, hx => ⟨xs, [], hq, hx, by simp, rfl⟩
  | y :: ys, xs, n + 1, hq, hn, hx => by
    by_cases hy : mylen < s.length y
    · refine ⟨xs, y :: ys, hq, hx, fun b hb => ?_, ?_⟩
      · have hs := h.order.sorted
        rw [hq, List.pairwise_append, List.pairwise_cons] at hs
        obtain rfl | hb := List.mem_cons.1 hb
        · exact hy
        · exact lt_of_lt_of_le hy (hs.2.1.1 b hb)
      · simp [Sys.findGreater, hy]
    · have hc : Circ s.links .runList (xs.map Le.runLink ++ Le.runLink y :: ys.map .runLink) := by
        have := h.ring
        rwa [hq, List.map_append, List.map_cons] at this
      have hle : s.length y ≤ mylen := not_lt.1 hy
      obtain ⟨xs', ys', hq', hx', hy', hrun⟩ :=
        h.findGreater mylen (n := n) (show q = xs ++ [y] ++ ys by rw [hq]; simp)
          (by simpa using hn) fun b hb => by
            obtain hb | hb := List.mem_append.1 hb
            · exact hx b hb
            · rw [List.mem_singleton.1 hb]
              exact hle
      refine ⟨xs', ys', hq', hx', hy', ?_⟩
      rw [← hrun]
      simp [Sys.findGreater, hy, listNext, hc.next_mid]

/-- **`sjf_enqueue`** puts the process behind those that are not longer. -/
theorem enqueue (h : Queued s q) (hp : p ∉ q) :
    ∃ s' q', s.sjfEnqueue p = some s' ∧ Queued s' q' := by
  obtain ⟨xs, ys, rfl, hx, hy, hrun⟩ :=
    h.findGreater (s.length p) (n := s.procNum + 1) (show q = [] ++ q from rfl)
      (by rw [h.num]; omega) (by simp)
  have hnext :
      listNext s.links .runList = ((xs ++ ys).map Le.runLink ++ [Le.runList]).head (by simp) :=
    h.ring.next_head
  obtain ⟨s', hs'⟩ : ∃ s' : Sys P, s' =
      { s with
        links :=
          listAddBefore s.links ((ys.map Le.runLink ++ [Le.runList]).head (by simp)) (.runLink p)
        onRq := Function.update s.onRq p true
        procNum := s.procNum + 1
        waiting := s.waiting ++ [p] } := ⟨_, rfl⟩
  have hnot : Le.runLink p ∉ Le.runList :: (xs.map Le.runLink ++ ys.map .runLink) := by
    simpa using hp
  have hc : Circ s.links .runList (xs.map Le.runLink ++ ys.map .runLink) := by
    rw [← List.map_append]
    exact h.ring
  refine ⟨s', xs ++ p :: ys, ?_, ?_, fun r hr => ?_, fun r hr => ?_, ?_, ?_⟩
  · rw [Sys.sjfEnqueue, if_pos (h.unlinked p hp), hnext, hrun, hs']
    rfl
  · rw [hs', List.map_append, List.map_cons]
    exact circ_listAddBefore hc hnot rfl
  · have hrp : r ≠ p := fun e => hr (by simp [e])
    have hrq : r ∉ xs ++ ys := fun hr' => hr (by
      simp only [List.mem_append, List.mem_cons] at hr' ⊢
      exact hr'.imp_right .inr)
    have hmem :
        ∀ {x}, x ∈ Le.runList :: (xs.map Le.runLink ++ ys.map .runLink) → Le.runLink r ≠ x :=
      fun hx e => by
        subst e
        simp only [List.mem_cons, reduceCtorEq, List.mem_append, List.mem_map, false_or] at hx
        obtain ⟨a, ha, he⟩ | ⟨a, ha, he⟩ := hx
        · cases he
          exact hrq (List.mem_append_left _ ha)
        · cases he
          exact hrq (List.mem_append_right _ ha)
    have hle : (ys.map Le.runLink ++ [Le.runList]).head (by simp) ∈
        Le.runList :: (xs.map Le.runLink ++ ys.map .runLink) := by
      cases ys <;> simp
    have hframe := listAddBefore_frame (L := s.links) (e := Le.runLink p) (x := Le.runLink r)
      (fun e => hrp (by cases e; rfl)) (hmem (hc.prev_mem hle)) (hmem hle)
    rw [hs', listEmpty, hframe.1]
    exact h.unlinked r hrq
  · rw [hs']
    dsimp only
    by_cases hrp : r = p
    · simp [hrp]
    · rw [Function.update_of_ne hrp]
      refine h.onRq r ?_
      simp only [List.mem_append, List.mem_cons, hrp, false_or] at hr ⊢
      exact hr
  · rw [hs']
    simp only [h.num, List.length_append, List.length_cons]
    omega
  · rw [hs']
    exact h.order.insert hx hy

theorem pickNext (h : Queued s q) : s.sjfPickNext = q.head? := by
  have hnext := h.ring.next_head
  rw [Sys.sjfPickNext, listNext, hnext]
  cases q <;> rfl

/-- **`sjf_dequeue`** of the process that is picked. -/
theorem dequeue (h : Queued s (p :: q)) : ∃ s', s.sjfDequeue p = some s' ∧ Queued s' q ∧
    s'.waiting = s.waiting.erase p := by
  have hc : Circ s.links .runList ([] ++ Le.runLink p :: q.map .runLink) := h.ring
  have hpq : p ∉ q := (List.nodup_cons.1 h.nodup).1
  have hlinked : listEmpty s.links (.runLink p) = false := listEmpty_of_mem h.ring (by simp)
  refine ⟨_, if_pos ⟨hlinked, h.onRq p (by simp)⟩, ⟨circ_listDelInit hc, fun r hr => ?_, fun r hr =>
    h.onRq r (List.mem_cons_of_mem _ hr), ?_, h.order.pop⟩, rfl⟩
  · by_cases hrp : r = p
    · rw [hrp]
      exact listEmpty_listDelInit
    · have hout : Le.runLink r ∉ Le.runList :: (p :: q).map Le.runLink := by simp [hrp, hr]
      rw [listEmpty, (listDelInit_outside h.ring (by simp) hout).1]
      exact h.unlinked r (by simp [hrp, hr])
  · simp [h.num]

theorem switch (h : Queued s q) : ∃ s' q', s.switch = some s' ∧ Queued s' q' := by
  cases q with
  | nil =>
    refine ⟨{ s with current := s.idleproc }, [], ?_, h.ring, h.unlinked, h.onRq, h.num, h.order⟩
    rw [Sys.switch, h.pickNext]
    rfl
  | cons p q =>
    obtain ⟨s', hs', hq, -⟩ := h.dequeue
    refine ⟨{ s' with current := p }, q, ?_, hq.ring, hq.unlinked, hq.onRq, hq.num, hq.order⟩
    rw [Sys.switch, h.pickNext, List.head?_cons]
    dsimp only
    rw [hs']
    rfl

/-- **`lab6_set_expected`** does not change the length of a process that waits. -/
theorem setExpected (h : Queued s q) (hc : s.current ∉ s.waiting) (expected : BitVec 32) :
    Queued (s.lab6SetExpected expected) q := by
  refine ⟨h.ring, h.unlinked, h.onRq, h.num, h.order.congr fun p hp => ?_⟩
  have hne : p ≠ s.current := fun e => hc (e ▸ hp)
  simp only [Sys.length, Sys.lab6SetExpected, Function.update_of_ne hne]

end Queued

/-! ## Runs -/

theorem machine_keeps : (machine P).Keeps fun s => ∃ q, Queued s q := by
  rintro s (p | _ | n) ⟨q, h⟩ hl
  · obtain ⟨s', q', hs', hq'⟩ := h.enqueue (p := p) fun hp => hl (h.order.mem_iff.1 hp)
    exact ⟨s', hs', q', hq'⟩
  · obtain ⟨s', q', hs', hq'⟩ := h.switch
    exact ⟨s', hs', q', hq'⟩
  · exact ⟨_, rfl, q, h.setExpected hl n⟩

theorem queued_reach (h : (machine P).Reach s) : ∃ q, Queued s q := by
  refine h.invariant (fun s hs => ?_) machine_keeps
  obtain ⟨hc, hu, hn, hw⟩ := hs
  refine ⟨[], hc, fun p _ => hu p, by simp, hn, ?_⟩
  rw [hw]
  exact .nil

/-- **The order of the run list.** It holds the processes that were enqueued, each once, sorted by
their expected lengths, and those of the same length in the order in which they were enqueued;
`proc_num` is its length.  The process that is picked is of the least length, and the first of these
that was enqueued.  No operation fails. -/
theorem sjf_order (h : (machine P).Reach s) :
    (∃ q : List P, Circ s.links .runList (q.map .runLink) ∧ q.Nodup ∧ q.Perm s.waiting ∧
      s.procNum = q.length ∧ (q.Pairwise fun a b => s.length a ≤ s.length b) ∧
      ∀ n, q.filter (s.length · = n) = s.waiting.filter (s.length · = n)) ∧
    (s.sjfPickNext = none ↔ s.waiting = []) ∧
    (∀ p, s.sjfPickNext = some p → p ∈ s.waiting ∧ (∀ r ∈ s.waiting, s.length p ≤ s.length r) ∧
      (s.waiting.filter (s.length · = s.length p)).head? = some p) ∧
    ∀ op, Legal s op → ∃ s', s.step op = some s' := by
  obtain ⟨q, hq⟩ := queued_reach h
  refine ⟨⟨q, hq.ring, hq.nodup, hq.order.perm, hq.num, hq.order.sorted, hq.order.stable⟩, ?_,
    fun p hp => ?_, fun op hl => ?_⟩
  · rw [hq.pickNext, List.head?_eq_none_iff]
    have hperm := hq.order.perm
    constructor
    · rintro rfl
      exact hperm.nil_eq.symm
    · intro hw
      rw [hw] at hperm
      exact hperm.eq_nil
  · rw [hq.pickNext] at hp
    cases q with
    | nil => cases hp
    | cons a q =>
      cases hp
      exact ⟨hq.order.mem_iff.1 (by simp), fun r hr => hq.order.head_le hr, hq.order.head_first⟩
  · obtain ⟨s', hs', -⟩ := machine_keeps s op ⟨q, hq⟩ hl
    exact ⟨s', hs'⟩

end

/-! ## A run -/

/-- Three processes, of which `2` runs; their lengths are 5, unknown and 7. -/
def three : Sys (Fin 3) where
  links := ⟨id, id⟩
  sjfExpected := ![5, 0, 7]
  onRq := fun _ => false
  procNum := 0
  current := 2
  idleproc := 2
  waiting := []

/-- Process `2` says that it needs 5, and is enqueued behind `0`, which needs 5 too. -/
theorem sjf_order_three : ∃ s : Sys (Fin 3), (machine (Fin 3)).Reach s ∧ s.waiting = [1, 0, 2] ∧
    s.sjfPickNext = some 0 ∧ s.length 0 = s.length 2 ∧ ∀ r ∈ s.waiting,
      s.length 0 ≤ s.length r := by
  obtain ⟨s, hs, hw, hp, hl⟩ : ∃ s : Sys (Fin 3), (machine (Fin 3)).run three
      [.enqueue 1, .enqueue 0, .setExpected 5, .enqueue 2] = some s ∧ s.waiting = [1, 0, 2] ∧
      s.sjfPickNext = some 0 ∧ s.length 0 = s.length 2 :=
    ⟨_, rfl, by decide, by decide, by decide⟩
  have h0 : (machine (Fin 3)).Reach three :=
    .init ⟨⟨⟨rfl, rfl⟩, by decide⟩, fun p => by decide +revert, rfl, rfl⟩
  have hr := h0.run hs
  exact ⟨s, hr, hw, hp, hl, ((sjf_order hr).2.2.1 0 hp).2.1⟩

end Sjf

end Ucore
