/-
  The kernel's semaphores are hand-off semaphores.

  `Kern.Ok k live a`: the semaphores in `live`, with their wait queues and sleeping processes, are
  in the abstract states `a`.  Each operation has one lemma that says which abstract step it takes.
-/
import Ucore.Sync.Sem
import Ucore.Lib.HandOff

namespace Ucore

open Intrusive HandOff

set_option linter.unusedSectionVars false

variable {S P : Type} [DecidableEq S] [DecidableEq P]

/-- The queue entries of a list of processes. -/
abbrev waitLinks (ps : List P) : List (WaitNode S P) := ps.map .waitLink

namespace Kern

/-- The kernel state represents the abstract semaphores `a`. -/
structure Ok (k : Kern S P) (live : S → Prop) (a : S → Sema P) : Prop where
  value : ∀ s, live s → k.value s = (a s).value
  ring : ∀ s, live s → Circ k.links (.waitHead s) (waitLinks (a s).queue)
  asleep : ∀ s, live s → ∀ p ∈ (a s).queue, k.inDown p = some s ∧
    k.proc p = ⟨.sleeping, wtKsem⟩ ∧ (k.wait p).proc = some p ∧ (k.wait p).waitQueue = s
  woken : ∀ p s, k.inDown p = some s → live s ∧ (p ∉ (a s).queue →
    (k.proc p).state = .runnable ∧ (k.wait p).wakeupFlags = wtKsem ∧
      listEmpty k.links (.waitLink p) = true)

variable {k : Kern S P} {live : S → Prop} {a : S → Sema P} {s s' : S} {p q : P} {ps : List P}

/-- Two wait queues have no node in common. -/
theorem Ok.apart (o : Ok k live a) (hs : live s) (hs' : live s') (hne : s' ≠ s) :
    ∀ x ∈ (WaitNode.waitHead s' : WaitNode S P) :: waitLinks (a s').queue,
      x ∉ .waitHead s :: waitLinks (a s).queue := by
  intro x hx hx'
  simp only [List.mem_cons, List.mem_map] at hx hx'
  rcases hx with rfl | ⟨p, hp, rfl⟩
  · simp [hne] at hx'
  · simp only [reduceCtorEq, WaitNode.waitLink.injEq, exists_eq_right, false_or] at hx'
    have h1 := (o.asleep s' hs' p hp).1
    rw [(o.asleep s hs p hx').1, Option.some.injEq] at h1
    exact hne h1.symm

/-- A process on its way out of a `down` is in no queue. -/
theorem Ok.woken_notMem (o : Ok k live a) (hs : live s) (hp : k.inDown p = some s')
    (hq : p ∉ (a s').queue) :
      (.waitLink p : WaitNode S P) ∉ .waitHead s :: waitLinks (a s).queue := by
  intro hm
  simp only [List.mem_cons, reduceCtorEq, List.mem_map, WaitNode.waitLink.injEq, exists_eq_right,
    false_or] at hm
  have := (o.asleep s hs p hm).1
  rw [hp, Option.some.injEq] at this
  exact hq (this ▸ hm)

/-- A process that is not in a `down` is in no queue. -/
theorem Ok.idle_notMem (o : Ok k live a) (hs : live s) (hp : k.inDown p = none) :
    p ∉ (a s).queue := fun hm => by
  have := (o.asleep s hs p hm).1
  rw [hp] at this; cases this

/-! ## The operations -/

theorem waitQueueFirst_nil (c : Circ k.links (.waitHead s) []) : k.waitQueueFirst s = none := by
  have : listNext k.links (.waitHead s) = .waitHead s := c.next_head
  simp [waitQueueFirst, this]

theorem waitQueueFirst_cons (c : Circ k.links (.waitHead s) (waitLinks (p :: ps))) :
    k.waitQueueFirst s = some p := by
  have : listNext k.links (.waitHead s) = .waitLink p := c.next_head
  simp [waitQueueFirst, this]

/-- Changing one value keeps the queues. -/
theorem Ok.setValue (o : Ok k live a) {v : ℕ} {x : ℤ} (hx : x = v) :
    Ok (k.setValue s x) live (Function.update a s { a s with value := v }) := by
  have hq : ∀ s', (Function.update a s { a s with value := v } s').queue = (a s').queue := by
    intro s'; by_cases h : s' = s
    · subst h; simp
    · simp [h]
  refine ⟨fun s' hs' => ?_, fun s' hs' => by simpa [hq] using o.ring s' hs',
    fun s' hs' p hp => o.asleep s' hs' p (by rwa [hq] at hp), fun p s' hp => ?_⟩
  · by_cases h : s' = s
    · subst h; simp [hx]
    · simpa [h] using o.value s' hs'
  · simpa [hq] using o.woken p s' hp

/-- **`up`** takes the abstract step; the woken process becomes runnable. -/
theorem up_spec (o : Ok k live a) (hs : live s) (hv : (a s).value + 1 < 2 ^ 31) :
    ∃ k', k.up s = some k' ∧ Ok k' live (Function.update a s (a s).up.1) ∧
      k'.inDown = k.inDown ∧
      (∀ p, (a s).queue.head? ≠ some p → k'.proc p = k.proc p ∧ k'.wait p = k.wait p) ∧
      ∀ p, (a s).queue.head? = some p →
        k'.proc p = ⟨.runnable, 0⟩ ∧ (k'.wait p).wakeupFlags = wtKsem := by
  cases hq : (a s).queue with
  | nil =>
    have hf : k.waitQueueFirst s = none := waitQueueFirst_nil (by simpa [hq] using o.ring s hs)
    have hval : i32 (k.value s + 1) = ((a s).value + 1 : ℕ) := by
      rw [o.value s hs]; exact_mod_cast i32_of_lt hv
    refine ⟨k.setValue s (i32 (k.value s + 1)), by simp [up, upWith, hf], ?_, rfl,
      fun _ _ => ⟨rfl, rfl⟩, by simp⟩
    simpa [Sema.up, hq] using o.setValue (s := s) hval
  | cons p ps =>
    have hring := o.ring s hs
    rw [hq] at hring
    have hf := waitQueueFirst_cons hring
    obtain ⟨hin, hproc, hwp, hwq⟩ := o.asleep s hs p (by simp [hq])
    have hne : listEmpty k.links (.waitLink p) = false := listEmpty_of_mem hring (by simp)
    have hps : p ∉ ps := fun hm => (List.nodup_cons.1 hring.nodup_tail).1 (List.mem_map_of_mem hm)
    have hring' : Circ (listDelInit k.links (.waitLink p)) (.waitHead s) (waitLinks ps) := by
      have hc : Circ k.links (.waitHead s) ([] ++ .waitLink p :: waitLinks ps) := hring
      exact circ_listDelInit hc
    have hout : ∀ x ∉ (WaitNode.waitHead s : WaitNode S P) :: waitLinks (p :: ps),
        (listDelInit k.links (.waitLink p)).next x = k.links.next x ∧
          (listDelInit k.links (.waitLink p)).prev x = k.links.prev x := fun x hx =>
      listDelInit_outside hring (by simp) hx
    have hup : (a s).up.1 = { a s with queue := ps } := by simp [Sema.up, hq]
    refine ⟨(({ k with links := listDelInit k.links (.waitLink p) }).setWait p
      { k.wait p with wakeupFlags := wtKsem }).setProc p ⟨.runnable, 0⟩, ?_, ?_, rfl, ?_, ?_⟩
    · simp [up, upWith, hf, hwp, hproc, wakeupWait, waitQueueDel, hne, hwq, wakeupProc,
        Proc.wakeup]
    · rw [hup]
      refine ⟨fun s' hs' => ?_, fun s' hs' => ?_, fun s' hs' q hqm => ?_, fun q s' hqd => ?_⟩
      · by_cases h : s' = s
        · subst h; simpa using o.value s' hs'
        · simpa [h] using o.value s' hs'
      · by_cases h : s' = s
        · subst h; simpa using hring'
        · have hap := o.apart hs hs' h
          rw [hq] at hap
          simpa [h] using (o.ring s' hs').congr (fun x hx => (hout x (hap x hx)).1)
            fun x hx => (hout x (hap x hx)).2
      · have hqm' : q ∈ (a s').queue := by
          by_cases h : s' = s
          · subst h; simp only [Function.update_self] at hqm; rw [hq]; simp [hqm]
          · simpa [h] using hqm
        have hqp : q ≠ p := by
          rintro rfl
          have := (o.asleep s' hs' q hqm').1
          rw [hin, Option.some.injEq] at this
          subst this
          simp only [Function.update_self] at hqm
          exact hps hqm
        simpa [hqp] using o.asleep s' hs' q hqm'
      · obtain ⟨hl, hw⟩ := o.woken q s' hqd
        refine ⟨hl, fun hnq => ?_⟩
        by_cases hqp : q = p
        · subst hqp; simp [listEmpty_listDelInit]
        · have hnq' : q ∉ (a s').queue := by
            by_cases h : s' = s
            · subst h; simp only [Function.update_self] at hnq; rw [hq]; simp [hnq, hqp]
            · simpa [h] using hnq
          have hmem := o.woken_notMem hs hqd hnq'
          rw [hq] at hmem
          obtain ⟨h1, h2, h3⟩ := hw hnq'
          refine ⟨by simpa [hqp] using h1, by simpa [hqp] using h2, ?_⟩
          simpa [listEmpty, (hout _ hmem).1] using h3
    · intro q hqh
      have hqp : q ≠ p := fun h => hqh (by simp [h])
      simp [hqp]
    · intro q hqh
      obtain rfl : p = q := by simpa using hqh
      simp

/-- **`down`** by a process that is not asleep. -/
theorem down_spec (o : Ok k live a) (hs : live s) (hp : k.inDown p = none) :
    ∃ k', k.down s p = some (k', decide (0 < (a s).value)) ∧
      Ok k' live (Function.update a s ((a s).down p).1) ∧
      k'.inDown = Function.update k.inDown p (if 0 < (a s).value then none else some s) ∧
      ∀ q ≠ p, k'.proc q = k.proc q ∧ k'.wait q = k.wait q := by
  have hval := o.value s hs
  by_cases hv : 0 < (a s).value
  · have hkv : 0 < k.value s := by omega
    refine ⟨k.setValue s (k.value s - 1), by simp [down, downEnter, hkv, hv], ?_, ?_,
      fun _ _ => ⟨rfl, rfl⟩⟩
    · have : k.value s - 1 = ((a s).value - 1 : ℕ) := by omega
      simpa [Sema.down, hv] using o.setValue (s := s) this
    · funext q; by_cases h : q = p
      · subst h; simp [hp, hv]
      · simp [h]
  · have hkv : ¬ 0 < k.value s := by omega
    have hidle := fun s' (hs' : live s') => o.idle_notMem (p := p) hs' hp
    -- initialising the entry of `p` touches no queue
    have hinit : ∀ x ≠ (WaitNode.waitLink p : WaitNode S P),
        (listInit k.links (.waitLink p)).next x = k.links.next x ∧
          (listInit k.links (.waitLink p)).prev x = k.links.prev x := fun x hx => by
      simp [listInit, hx]
    have hnode : ∀ s', live s' → ∀ x ∈ (WaitNode.waitHead s' : WaitNode S P) ::
        waitLinks (a s').queue, x ≠ .waitLink p := by
      rintro s' hs' x hx rfl
      simp only [List.mem_cons, reduceCtorEq, List.mem_map, WaitNode.waitLink.injEq,
        exists_eq_right, false_or] at hx
      exact hidle s' hs' hx
    have hring₁ : ∀ s', live s' → Circ (listInit k.links (.waitLink p)) (.waitHead s')
        (waitLinks (a s').queue) := fun s' hs' =>
      (o.ring s' hs').congr (fun x hx => (hinit x (hnode s' hs' x hx)).1)
        fun x hx => (hinit x (hnode s' hs' x hx)).2
    have hem : listEmpty (listInit k.links (.waitLink p)) (.waitLink p) = true := by
      simp [listEmpty, listInit]
    have hpn : (.waitLink p : WaitNode S P) ∉ .waitHead s :: waitLinks (a s).queue :=
      fun hm => hnode s hs _ hm rfl
    have hdown : ((a s).down p).1 = { a s with queue := (a s).queue ++ [p] } := by
      simp [Sema.down, hv]
    refine ⟨(({ (k.setWait p { proc := some p, wakeupFlags := wtInterrupted, waitQueue := s }) with
      links := listAddBefore (listInit k.links (.waitLink p)) (.waitHead s) (.waitLink p) }).setProc
        p ⟨.sleeping, wtKsem⟩).setInDown p (some s), ?_, ?_, ?_, ?_⟩
    · have hset : k.waitCurrentSet s p wtKsem = some (({ (k.setWait p
          { proc := some p, wakeupFlags := wtInterrupted, waitQueue := s }) with
            links := listAddBefore (listInit k.links (.waitLink p)) (.waitHead s)
              (.waitLink p) }).setProc p ⟨.sleeping, wtKsem⟩) := by
        simp [waitCurrentSet, waitQueueAdd, waitInit, hem, setWait, setProc]
      simp [down, downEnter, hkv, hv, hset]
    · rw [hdown]
      refine ⟨fun s' hs' => ?_, fun s' hs' => ?_, fun s' hs' q hqm => ?_, fun q s' hqd => ?_⟩
      · by_cases h : s' = s
        · subst h; simpa using o.value s' hs'
        · simpa [h] using o.value s' hs'
      · by_cases h : s' = s
        · subst h
          simpa using circ_listAddBefore_tail (hring₁ s' hs') hpn
        · have hap := o.apart hs hs' h
          simpa [h] using (hring₁ s' hs').congr
            (fun x hx => (listAddBefore_outside (hring₁ s hs) (hap x hx) (hnode s' hs' x hx)).1)
            fun x hx => (listAddBefore_outside (hring₁ s hs) (hap x hx) (hnode s' hs' x hx)).2
      · by_cases hqp : q = p
        · subst hqp
          have hss : s' = s := by
            by_contra h
            exact hidle s' hs' (by simpa [h] using hqm)
          simp [hss]
        · have hqm' : q ∈ (a s').queue := by
            by_cases h : s' = s
            · subst h; simpa [hqp] using hqm
            · simpa [h] using hqm
          simpa [hqp] using o.asleep s' hs' q hqm'
      · by_cases hqp : q = p
        · subst hqp
          obtain rfl : s = s' := by simpa using hqd
          exact ⟨hs, fun hn => absurd (by simp) hn⟩
        · have hqd' : k.inDown q = some s' := by simpa [hqp] using hqd
          obtain ⟨hl, hw⟩ := o.woken q s' hqd'
          refine ⟨hl, fun hnq => ?_⟩
          have hnq' : q ∉ (a s').queue := by
            by_cases h : s' = s
            · subst h; simp only [Function.update_self, List.mem_append, not_or] at hnq
              exact hnq.1
            · simpa [h] using hnq
          obtain ⟨h1, h2, h3⟩ := hw hnq'
          have hql : (WaitNode.waitLink q : WaitNode S P) ≠ .waitLink p := by simpa using hqp
          refine ⟨by simpa [hqp] using h1, by simpa [hqp] using h2, ?_⟩
          simpa [listEmpty, (listAddBefore_outside (hring₁ s hs)
            (o.woken_notMem hs hqd' hnq') hql).1, (hinit _ hql).1] using h3
    · funext q; by_cases h : q = p
      · subst h; simp [hv]
      · simp [h]
    · intro q hq; simp [hq]

/-- **The return of a `down`** that was woken: its assertion holds. -/
theorem downResume_spec (o : Ok k live a) (hp : k.inDown p = some s)
    (hr : (k.proc p).state = .runnable) :
    p ∉ (a s).queue ∧ k.downResume s p = some (k.setInDown p none) ∧
      Ok (k.setInDown p none) live a := by
  obtain ⟨hl, hw⟩ := o.woken p s hp
  have hn : p ∉ (a s).queue := fun hm => by
    rw [(o.asleep s hl p hm).2.1] at hr; cases hr
  obtain ⟨-, hf, he⟩ := hw hn
  refine ⟨hn, by simp [downResume, downLeave, waitCurrentDel, waitInQueue, he, hf], o.value, o.ring,
    fun s' hs' q hq => ?_, fun q s' hq => ?_⟩
  · have hqp : q ≠ p := by
      rintro rfl
      have := (o.asleep s' hs' q hq).1
      rw [hp, Option.some.injEq] at this
      exact hn (this ▸ hq)
    simpa [hqp] using o.asleep s' hs' q hq
  · by_cases hqp : q = p
    · subst hqp; simp at hq
    · exact o.woken q s' (by simpa [hqp] using hq)

theorem tryDown_spec (o : Ok k live a) (hs : live s) :
    (k.tryDown s).2 = decide (0 < (a s).value) ∧
      Ok (k.tryDown s).1 live (Function.update a s ((a s).tryDown p).1) := by
  have hval := o.value s hs
  by_cases hv : 0 < (a s).value
  · have hkv : 0 < k.value s := by omega
    have : k.value s - 1 = ((a s).value - 1 : ℕ) := by omega
    simpa [tryDown, hkv, hv, Sema.tryDown] using o.setValue (s := s) this
  · have hkv : ¬ 0 < k.value s := by omega
    simpa [tryDown, hkv, hv, Sema.tryDown] using o

/-- `sem_init` on a semaphore that is not in use. -/
theorem semInit_spec (o : Ok k live a) (hs : ¬ live s) (v : ℕ) :
    Ok (k.semInit s v) (fun s' => s' = s ∨ live s') (Function.update a s ⟨v, []⟩) := by
  have hlinks : ∀ x ≠ (WaitNode.waitHead s : WaitNode S P),
      (k.semInit s v).links.next x = k.links.next x ∧
        (k.semInit s v).links.prev x = k.links.prev x := fun x hx => by
    simp [semInit, waitQueueInit, listInit, hx]
  have hne : ∀ s', live s' → s' ≠ s := fun s' hs' h => hs (h ▸ hs')
  refine ⟨fun s' hs' => ?_, fun s' hs' => ?_, fun s' hs' p hp => ?_, fun p s' hp => ?_⟩
  · by_cases h : s' = s
    · subst h; simp [semInit, waitQueueInit]
    · simpa [semInit, waitQueueInit, h] using o.value s' (hs'.resolve_left h)
  · by_cases h : s' = s
    · subst h; simpa [semInit, waitQueueInit] using circ_listInit k.links (.waitHead s')
    · have hx : ∀ x ∈ (WaitNode.waitHead s' : WaitNode S P) :: waitLinks (a s').queue,
          x ≠ .waitHead s := by
        rintro x hx rfl
        simp [Ne.symm h] at hx
      simpa [h] using (o.ring s' (hs'.resolve_left h)).congr (fun x hx' => (hlinks x (hx x hx')).1)
        fun x hx' => (hlinks x (hx x hx')).2
  · by_cases h : s' = s
    · subst h; simp at hp
    · exact o.asleep s' (hs'.resolve_left h) p (by simpa [h] using hp)
  · obtain ⟨hl, hw⟩ := o.woken p s' hp
    refine ⟨Or.inr hl, fun hn => ?_⟩
    obtain ⟨h1, h2, h3⟩ := hw (by simpa [hne s' hl] using hn)
    have hx := (hlinks (.waitLink p) (by simp)).1
    exact ⟨h1, h2, by simpa [listEmpty, hx] using h3⟩

/-- `sem_init` with no permits, for each of a list of semaphores. -/
theorem semInits_spec {ι : Type} {g : ι → S} (hg : Function.Injective g) {cs : List ι}
    {k : Kern S P} {live : S → Prop} {a : S → Sema P} (ok : k.Ok live a)
    (hl : ∀ c ∈ cs, ¬ live (g c)) (hnd : cs.Nodup) :
    ∃ a', (cs.foldl (fun k i => k.semInit (g i) 0) k).Ok
        (fun s => live s ∨ ∃ c ∈ cs, s = g c) a' ∧
      (∀ c ∈ cs, a' (g c) = ⟨0, []⟩) ∧ (∀ s, (∀ c ∈ cs, s ≠ g c) → a' s = a s) ∧
      (cs.foldl (fun k i => k.semInit (g i) 0) k).inDown = k.inDown := by
  induction cs generalizing k live a with
  | nil => exact ⟨a, by simpa using ok, by simp, fun _ _ => rfl, rfl⟩
  | cons c cs ih =>
    obtain ⟨hc, hnd⟩ := List.nodup_cons.1 hnd
    have ok' := semInit_spec ok (hl c (by simp)) 0
    obtain ⟨a', ha', hnew, hold, hd⟩ := ih ok' (fun c' hc' h => by
      rcases h with h | h
      · exact hc (hg h ▸ hc')
      · exact hl c' (by simp [hc']) h) hnd
    refine ⟨a', ?_, fun c' hc' => ?_, fun s hs => ?_, hd⟩
    · have hlive : (fun s => (s = g c ∨ live s) ∨ ∃ c ∈ cs, s = g c) =
          fun s => live s ∨ ∃ c' ∈ c :: cs, s = g c' := by
        funext s
        simp only [List.mem_cons, exists_eq_or_imp]
        rw [eq_iff_iff]
        tauto
      exact hlive ▸ ha'
    · rcases List.mem_cons.1 hc' with rfl | hc'
      · rw [hold _ fun c₁ hc₁ h => hc (by rw [hg h]; exact hc₁), Function.update_self]
      · exact hnew c' hc'
    · rw [hold s fun c' hc' => hs c' (by simp [hc']), Function.update_of_ne (hs c (by simp))]

/-- A process that is not in a `down` does not matter. -/
theorem Ok.setProc (o : Ok k live a) (hp : k.inDown p = none) (g : Proc) :
    Ok (k.setProc p g) live a := by
  refine ⟨o.value, o.ring, fun s' hs' q hq => ?_, fun q s' hq => ?_⟩
  · have hqp : q ≠ p := by rintro rfl; exact o.idle_notMem hs' hp hq
    simpa [hqp] using o.asleep s' hs' q hq
  · have hqp : q ≠ p := by rintro rfl; simp [hp] at hq
    simpa [hqp] using o.woken q s' hq

end Kern

end Ucore
