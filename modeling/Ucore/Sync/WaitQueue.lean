/-
  What the functions of `wait.c` do to one wait queue.

  * `waitCurrentSet_spec`: the process is the last in the queue, and asleep;
  * `waitCurrentDel_spec`: the entry is in no queue afterwards, whoever took it out;
  * `wakeupQueue_spec`: everybody in the queue is woken and taken out.
-/
import Ucore.Sync.SemInv

namespace Ucore

open Intrusive

set_option linter.unusedSectionVars false

variable {S P : Type} [DecidableEq S] [DecidableEq P]

namespace Kern

variable {k k' : Kern S P} {s : S} {p q : P} {ps : List P} {f : BitVec 32}

/-- The entry of `p` is linked. -/
def Linked (k : Kern S P) (p : P) : Prop := listEmpty k.links (.waitLink p) = false

/-- The queue `s` holds the entries of the processes `ps`, which are not zombies. -/
structure Waiting (k : Kern S P) (s : S) (ps : List P) : Prop where
  ring : Circ k.links (.waitHead s) (waitLinks ps)
  entry : ∀ p ∈ ps, (k.wait p).proc = some p ∧ (k.wait p).waitQueue = s
  alive : ∀ p ∈ ps, (k.proc p).state ≠ .zombie

theorem Waiting.nodup (h : k.Waiting s ps) : ps.Nodup := h.ring.nodup_tail.of_map

theorem Waiting.linked (h : k.Waiting s ps) (hp : p ∈ ps) : k.Linked p :=
  listEmpty_of_mem h.ring (List.mem_map_of_mem hp)

theorem Waiting.empty_iff (h : k.Waiting s ps) : k.waitQueueEmpty s = true ↔ ps = [] := by
  simp [waitQueueEmpty, listEmpty_iff h.ring]

/-- The entries of the processes outside the queue are not nodes of it. -/
theorem Waiting.node_notMem (h : q ∉ ps) :
    (.waitLink q : WaitNode S P) ∉ .waitHead s :: waitLinks ps := by simpa using h

/-- **`wait_current_set`** -/
theorem waitCurrentSet_spec (h : k.Waiting s ps) (hp : p ∉ ps) (f : BitVec 32) :
    ∃ k', k.waitCurrentSet s p f = some k' ∧ k'.Waiting s (ps ++ [p]) ∧
      k'.proc = Function.update k.proc p ⟨.sleeping, f⟩ ∧
      k'.wait = Function.update k.wait p ⟨some p, wtInterrupted, s⟩ ∧
      ∀ q ≠ p, (k'.Linked q ↔ k.Linked q) := by
  have hinit : ∀ x ≠ (WaitNode.waitLink p : WaitNode S P),
      (listInit k.links (.waitLink p)).next x = k.links.next x ∧
        (listInit k.links (.waitLink p)).prev x = k.links.prev x := fun x hx => by
    simp [listInit, hx]
  have hpn : (.waitLink p : WaitNode S P) ∉ .waitHead s :: waitLinks ps :=
    Waiting.node_notMem hp
  have hring : Circ (listInit k.links (.waitLink p)) (.waitHead s) (waitLinks ps) :=
    h.ring.congr (fun x hx => (hinit x fun e => hpn (e ▸ hx)).1)
      fun x hx => (hinit x fun e => hpn (e ▸ hx)).2
  have hem : listEmpty (listInit k.links (.waitLink p)) (.waitLink p) = true := by
    simp [listEmpty, listInit]
  refine ⟨{ (k.setWait p ⟨some p, wtInterrupted, s⟩).setProc p ⟨.sleeping, f⟩ with
    links := listAddBefore (listInit k.links (.waitLink p)) (.waitHead s) (.waitLink p) },
    ?_, ⟨?_, ?_, ?_⟩, rfl, rfl, ?_⟩
  · simp [waitCurrentSet, waitQueueAdd, waitInit, hem, setWait, setProc]
  · simpa using circ_listAddBefore_tail hring hpn
  · intro q hq
    by_cases hqp : q = p
    · subst hqp; simp
    · simpa [hqp] using h.entry q (by simpa [hqp] using hq)
  · intro q hq
    by_cases hqp : q = p
    · subst hqp; simp
    · simpa [hqp] using h.alive q (by simpa [hqp] using hq)
  · intro q hqp
    have hql : (WaitNode.waitLink q : WaitNode S P) ≠ .waitLink p := by simpa using hqp
    by_cases hq : q ∈ ps
    · have hw : (listAddBefore (listInit k.links (.waitLink p)) (.waitHead s) (.waitLink p)).next
          (.waitLink q) ≠ .waitLink q := by
        have hm : (.waitLink q : WaitNode S P) ∈ waitLinks ps ++ [.waitLink p] :=
          List.mem_append_left _ (List.mem_map_of_mem hq)
        simpa [listEmpty] using listEmpty_of_mem (circ_listAddBefore_tail hring hpn) hm
      exact ⟨fun _ => h.linked hq, fun _ => by simpa [Linked, listEmpty] using hw⟩
    · have hx := (listAddBefore_outside hring (Waiting.node_notMem (s := s) hq) hql).1
      simp [Linked, listEmpty, hx, (hinit _ hql).1]

theorem waitQueueDel_spec (h : k.Waiting s ps) (hp : p ∈ ps) :
    ∃ k', k.waitQueueDel s p = some k' ∧ k'.Waiting s (ps.erase p) ∧ k'.proc = k.proc ∧
      k'.wait = k.wait ∧ ¬ k'.Linked p ∧ ∀ q ≠ p, (k'.Linked q ↔ k.Linked q) := by
  have hlink : listEmpty k.links (.waitLink p) = false := h.linked hp
  obtain ⟨as, bs, rfl⟩ := List.append_of_mem hp
  have has : p ∉ as := fun hm => (List.nodup_append.1 h.nodup).2.2 p hm p (by simp) rfl
  have her : (as ++ p :: bs).erase p = as ++ bs := by
    rw [List.erase_append_right _ has, List.erase_cons_head]
  have hring : Circ k.links (.waitHead s) (waitLinks as ++ .waitLink p :: waitLinks bs) := by
    simpa using h.ring
  have hring' : Circ (listDelInit k.links (.waitLink p)) (.waitHead s) (waitLinks (as ++ bs)) := by
    simpa using circ_listDelInit hring
  have hsub : ∀ q ∈ as ++ bs, q ∈ as ++ p :: bs := fun q hq => by
    simp only [List.mem_append, List.mem_cons] at hq ⊢; tauto
  rw [her]
  refine ⟨{ k with links := listDelInit k.links (.waitLink p) }, ?_,
    ⟨hring', fun q hq => h.entry q (hsub q hq), fun q hq => h.alive q (hsub q hq)⟩,
    rfl, rfl, ?_, ?_⟩
  · simp [waitQueueDel, hlink, (h.entry p hp).2]
  · simp [Linked, listEmpty_listDelInit]
  · intro q hqp
    by_cases hq : q ∈ as ++ bs
    · have h1 : k.Linked q := h.linked (hsub q hq)
      have h2 := listEmpty_of_mem hring' (List.mem_map_of_mem hq)
      exact ⟨fun _ => h1, fun _ => h2⟩
    · have hq' : (.waitLink q : WaitNode S P) ∉
          .waitHead s :: (waitLinks as ++ .waitLink p :: waitLinks bs) := by
        simp only [List.mem_append, not_or] at hq
        simp [hq.1, hq.2, hqp]
      have hm : (.waitLink p : WaitNode S P) ∈ waitLinks as ++ .waitLink p :: waitLinks bs := by
        simp
      simp [Linked, listEmpty, (listDelInit_outside hring hm hq').1]

/-- **`wait_current_del`** -/
theorem waitCurrentDel_spec (h : k.Waiting s ps) (hl : k.Linked p → p ∈ ps) :
    ∃ k', k.waitCurrentDel s p = some k' ∧ k'.Waiting s (ps.erase p) ∧ k'.proc = k.proc ∧
      k'.wait = k.wait ∧ ¬ k'.Linked p ∧ ∀ q ≠ p, (k'.Linked q ↔ k.Linked q) := by
  by_cases hlink : k.Linked p
  · have hin : k.waitInQueue p = true := by simpa [waitInQueue, Linked] using hlink
    rw [waitCurrentDel, if_pos hin]
    exact waitQueueDel_spec h (hl hlink)
  · have hp : p ∉ ps := fun hm => hlink (h.linked hm)
    have hin : ¬ k.waitInQueue p = true := by simpa [waitInQueue, Linked] using hlink
    rw [waitCurrentDel, if_neg hin, List.erase_of_not_mem hp]
    exact ⟨k, rfl, h, rfl, rfl, hlink, fun _ _ => Iff.rfl⟩

theorem wakeup_alive {g : Proc} (hz : g.state ≠ .zombie) :
    ∃ g', g.wakeup = some g' ∧ g'.state = .runnable := by
  by_cases hr : g.state = .runnable
  · exact ⟨g, by simp [Proc.wakeup, hr], hr⟩
  · exact ⟨⟨.runnable, 0⟩, by simp [Proc.wakeup, hz, hr], rfl⟩

/-- **`wakeup_wait`** of the first entry, which it takes out. -/
theorem wakeupWait_spec (h : k.Waiting s (p :: ps)) (f : BitVec 32) :
    ∃ k', k.wakeupWait s p f true = some k' ∧ k'.Waiting s ps ∧
      k'.wait = Function.update k.wait p { k.wait p with wakeupFlags := f } ∧
      (k'.proc p).state = .runnable ∧ (∀ q ≠ p, k'.proc q = k.proc q) ∧
      ¬ k'.Linked p ∧ ∀ q ≠ p, (k'.Linked q ↔ k.Linked q) := by
  obtain ⟨k₁, hdel, hw, hproc, hwait, hn, hl⟩ := waitQueueDel_spec h (p := p) (by simp)
  obtain ⟨g, hg, hrun⟩ := wakeup_alive (h.alive p (by simp))
  have hne : ∀ q ∈ ps, q ≠ p := by
    rintro q hq rfl; exact (List.nodup_cons.1 h.nodup).1 hq
  rw [List.erase_cons_head] at hw
  refine ⟨(k₁.setWait p { k₁.wait p with wakeupFlags := f }).setProc p g, ?_, ⟨hw.ring, ?_, ?_⟩,
    by rw [← hwait]; rfl, by simp [hrun], ?_, hn, hl⟩
  · simp [wakeupWait, hdel, hwait, (h.entry p (by simp)).1, wakeupProc, hproc, hg]
  · intro q hq
    simpa [hne q hq] using hw.entry q hq
  · intro q hq
    simpa [hne q hq] using hw.alive q hq
  · intro q hq
    simp [hq, hproc]

/-- Everybody in `ps` is woken with the flags `f`, and nobody else. -/
structure Woken (k k' : Kern S P) (ps : List P) (f : BitVec 32) : Prop where
  woken : ∀ p ∈ ps, k'.wait p = { k.wait p with wakeupFlags := f } ∧
    (k'.proc p).state = .runnable ∧ ¬ k'.Linked p
  others : ∀ q ∉ ps, k'.wait q = k.wait q ∧ k'.proc q = k.proc q ∧ (k'.Linked q ↔ k.Linked q)

theorem wakeupLoop_spec (f : BitVec 32) : ∀ {ps : List P} {p : P} {k : Kern S P},
    k.Waiting s (p :: ps) → ∃ k', k'.Waiting s [] ∧ Woken k k' (p :: ps) f ∧
      ∀ n, wakeupLoop s f true n p k = if ps.length < n then some k' else none := by
  intro ps
  induction ps with
  | nil =>
    intro p k h
    obtain ⟨k', hk, hw, hwait, hrun, hproc, hnl, hl⟩ := wakeupWait_spec h f
    have hf : k'.waitQueueFirst s = none := waitQueueFirst_nil (by simpa using hw.ring)
    refine ⟨k', hw, ⟨?_, ?_⟩, ?_⟩
    · intro q hq
      obtain rfl : q = p := by simpa using hq
      exact ⟨by rw [hwait, Function.update_self], hrun, hnl⟩
    · intro q hq
      have hqp : q ≠ p := by simpa using hq
      exact ⟨by rw [hwait, Function.update_of_ne hqp], hproc q hqp, hl q hqp⟩
    · intro n
      cases n with
      | zero => simp [wakeupLoop]
      | succ n => simp [wakeupLoop, hk, hf]
  | cons p' ps ih =>
    intro p k h
    obtain ⟨k₁, hk, hw, hwait, hrun, hproc, hnl, hl⟩ := wakeupWait_spec h f
    have hf : k₁.waitQueueFirst s = some p' := waitQueueFirst_cons hw.ring
    obtain ⟨k', hw', hwok, hk'⟩ := ih hw
    have hp := (List.nodup_cons.1 h.nodup).1
    refine ⟨k', hw', ⟨?_, ?_⟩, ?_⟩
    · intro q hq
      by_cases hqp : q = p
      · subst hqp
        obtain ⟨h1, h2, h3⟩ := hwok.others q hp
        exact ⟨by rw [h1, hwait, Function.update_self], by rw [h2, hrun], fun hk => hnl (h3.1 hk)⟩
      · obtain ⟨h1, h2, h3⟩ := hwok.woken q (by simpa [hqp] using hq)
        exact ⟨by rw [h1, hwait, Function.update_of_ne hqp], h2, h3⟩
    · intro q hq
      have hqp : q ≠ p := fun e => hq (by simp [e])
      obtain ⟨h1, h2, h3⟩ := hwok.others q fun hm => hq (List.mem_cons_of_mem _ hm)
      exact ⟨by rw [h1, hwait, Function.update_of_ne hqp], by rw [h2, hproc q hqp],
        h3.trans (hl q hqp)⟩
    · intro n
      cases n with
      | zero => simp [wakeupLoop]
      | succ n => simp [wakeupLoop, hk, hf, hk']

/-- **`wakeup_queue`**, which takes one round for each entry. -/
theorem wakeupQueue_spec (h : k.Waiting s ps) (f : BitVec 32) :
    ∃ k', k'.Waiting s [] ∧ Woken k k' ps f ∧
      ∀ n, wakeupQueue n k s f true = if ps.length ≤ n then some k' else none := by
  cases ps with
  | nil =>
    have hf : k.waitQueueFirst s = none := waitQueueFirst_nil (by simpa using h.ring)
    exact ⟨k, h, ⟨by simp, fun _ _ => ⟨rfl, rfl, Iff.rfl⟩⟩, fun n => by simp [wakeupQueue, hf]⟩
  | cons p ps =>
    have hf : k.waitQueueFirst s = some p := waitQueueFirst_cons h.ring
    obtain ⟨k', hw, hwok, hk⟩ := wakeupLoop_spec f h
    exact ⟨k', hw, hwok, fun n => by simp [wakeupQueue, hf, hk, Nat.succ_le_iff]⟩

end Kern

end Ucore
