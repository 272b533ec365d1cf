/-
  What the steps of `dev_stdin.c` keep.

  * `Queued`: the wait queue holds entries of processes that are inside their wait, and it is empty
    while there are unread characters;
  * `Shared`: the buffer's positions are in range, and the characters delivered are those that the
    readers have;
  * `devStdinRead_inv`, `devStdinResume_inv`, `devStdinWrite_inv`, `doKill_inv`: every step keeps
    both, and no assertion fails;
  * `devStdinWrite_unread`: what a write does to the unread characters, in their order.
-/
import Ucore.Fs.DevStdin
import Ucore.Sync.WaitQueue

namespace Ucore

open Function (update update_self update_of_ne)
open RingBuffer

set_option linter.unusedSectionVars false

variable {P C : Type} [DecidableEq P] [DecidableEq C] [Zero C]

namespace Stdin

variable {s s' : Stdin P C} {ps : List P} {p q : P} {fr : Frame C} {n : ℕ} {c : C}

/-! ## The invariant -/

structure Queued (s : Stdin P C) (ps : List P) : Prop where
  waiting : s.kern.Waiting () ps
  framed : ∀ p ∈ ps, s.frame p ≠ none
  linked : ∀ p, s.frame p ≠ none → s.kern.Linked p → p ∈ ps
  asleep : ∀ p ∈ ps, (s.kern.wait p).wakeupFlags = wtInterrupted ∧
    ∀ fr, s.frame p = some fr → fr.interrupted = false → (s.kern.proc p).state = .sleeping
  woken : ∀ p, s.frame p ≠ none → p ∉ ps →
    (s.kern.wait p).wakeupFlags = wtKbd ∧ (s.kern.proc p).state = .runnable
  drained : ps ≠ [] → s.rpos = s.wpos
  part : ∀ p fr, s.frame p = some fr → fr.ret = fr.buf.length ∧ fr.ret < fr.len

/-- The characters delivered to `p`. -/
def taken (s : Stdin P C) (p : P) : List C := (s.log.filter fun e => e.1 = p).map Prod.snd

/-- The characters that the returned reads of `p` have stored. -/
def returned (s : Stdin P C) (p : P) : List C :=
  (s.returns.filter fun r => r.proc = p).flatMap fun r => r.frame.buf

/-- The characters that the read in which `p` waits has stored. -/
def pending (s : Stdin P C) (p : P) : List C := ((s.frame p).map Frame.buf).getD []

/-- `pend` are the characters of the reads that have not returned. -/
structure Shared (s : Stdin P C) (pend : P → List C) : Prop where
  room : s.rpos ≤ s.wpos ∧ s.wpos ≤ s.rpos + stdinBufsize
  count : s.log.length = s.rpos
  share : ∀ p, s.taken p = s.returned p ++ pend p
  exact : ∀ r ∈ s.returns, r.frame.ret = r.frame.buf.length ∧ r.frame.ret ≤ r.frame.len ∧
    (r.frame.interrupted = false → r.frame.ret = r.frame.len)

def Inv (s : Stdin P C) : Prop := ∃ ps, s.Queued ps ∧ s.Shared s.pending

theorem pending_update (s : Stdin P C) (p : P) (o : Option (Frame C)) (k : Kern Unit P) :
    ({ s with kern := k, frame := update s.frame p o } : Stdin P C).pending =
      update s.pending p ((o.map Frame.buf).getD []) := by
  funext q
  by_cases h : q = p
  · subst h; simp [pending]
  · simp [pending, h]

/-! ## `dev_stdin_read` -/

/-- The read of `p` returns. -/
theorem Shared.leave (h : s.Shared (update s.pending p fr.buf)) (hp : s.frame p = none)
    (hret : fr.ret = fr.buf.length ∧ fr.ret ≤ fr.len)
    (hx : fr.interrupted = false → fr.ret = fr.len) : (s.leave p fr).Shared s.pending where
  room := h.room
  count := h.count
  share q := by
    have hs := h.share q
    by_cases hq : q = p
    · subst hq
      have hpend : s.pending q = [] := by simp [pending, hp]
      rw [update_self] at hs
      simpa [taken, returned, Stdin.leave, hpend] using hs
    · have hq' : ¬ p = q := fun e => hq e.symm
      rw [update_of_ne hq] at hs
      simpa [taken, returned, Stdin.leave, hq'] using hs
  exact r hr := by
    rcases List.mem_append.1 hr with hr | hr
    · exact h.exact r hr
    · obtain rfl := List.mem_singleton.1 hr
      exact ⟨hret.1, hret.2, hx⟩

/-- One character is delivered to `p`. -/
theorem Shared.deliver (h : s.Shared (update s.pending p fr.buf)) (hlt : s.rpos < s.wpos) (c : C) :
    ({ s with rpos := s.rpos + 1, log := s.log ++ [(p, c)] } : Stdin P C).Shared
      (update s.pending p (fr.buf ++ [c])) where
  room := ⟨hlt, by have := h.room; dsimp only; omega⟩
  count := by simp [h.count]
  share q := by
    have hs := h.share q
    by_cases hq : q = p
    · subst hq
      rw [update_self] at hs ⊢
      simp only [taken, returned] at hs ⊢
      simp [hs]
    · have hq' : ¬ p = q := fun e => hq e.symm
      rw [update_of_ne hq] at hs ⊢
      simp only [taken, returned] at hs ⊢
      simpa [hq'] using hs
  exact := h.exact

/-- **The loop of `dev_stdin_read`.** -/
theorem readLoop_inv : ∀ {n : ℕ} {fr : Frame C} {s : Stdin P C}, s.Queued ps →
    s.frame p = none → s.Shared (update s.pending p fr.buf) → fr.ret = fr.buf.length →
    fr.ret + n = fr.len → ∃ s', s.readLoop p n fr = some s' ∧ s'.Inv := by
  intro n
  induction n with
  | zero =>
    intro fr s hq hp hs hret hlen
    exact ⟨_, rfl, ps, ⟨hq.waiting, hq.framed, hq.linked, hq.asleep, hq.woken, hq.drained, hq.part⟩,
      hs.leave hp ⟨hret, by omega⟩ fun _ => by omega⟩
  | succ n ih =>
    intro fr s hq hp hs hret hlen
    simp only [readLoop]
    by_cases hlt : s.rpos < s.wpos
    · rw [if_pos hlt]
      have hnil : ps = [] := by
        by_contra hne
        exact hlt.ne (hq.drained hne)
      subst hnil
      exact ih ⟨hq.waiting, hq.framed, hq.linked, hq.asleep, hq.woken, fun h => absurd rfl h,
        hq.part⟩ hp (hs.deliver hlt _) (by simp [hret]) (by dsimp only; omega)
    · rw [if_neg hlt]
      have hn : p ∉ ps := fun hm => hq.framed p hm hp
      obtain ⟨k, hk, hw, hproc, hwait, hl⟩ := Kern.waitCurrentSet_spec hq.waiting hn wtKbd
      refine ⟨_, by rw [hk]; rfl, ps ++ [p], ⟨hw, ?_, ?_, ?_, ?_, ?_, ?_⟩, ?_⟩
      · intro q hm
        by_cases hqp : q = p
        · subst hqp; simp
        · simpa [hqp] using hq.framed q (by simpa [hqp] using hm)
      · intro q hf hlk
        by_cases hqp : q = p
        · simp [hqp]
        · have hf' : s.frame q ≠ none := by simpa [hqp] using hf
          exact List.mem_append_left _ (hq.linked q hf' ((hl q hqp).1 hlk))
      · intro q hm
        by_cases hqp : q = p
        · subst hqp; simp [hwait, hproc]
        · simpa [hqp, hwait, hproc] using hq.asleep q (by simpa [hqp] using hm)
      · intro q hf hm
        have hqp : q ≠ p := fun e => hm (by simp [e])
        have hf' : s.frame q ≠ none := by simpa [hqp] using hf
        simpa [hqp, hwait, hproc] using hq.woken q hf' fun h => hm (List.mem_append_left _ h)
      · intro _
        have := hs.room; dsimp only; omega
      · intro q fr' hf
        by_cases hqp : q = p
        · subst hqp
          obtain rfl : fr = fr' := by simpa using hf
          exact ⟨hret, by omega⟩
        · exact hq.part q fr' (by simpa [hqp] using hf)
      · rw [pending_update]
        exact ⟨hs.room, hs.count, hs.share, hs.exact⟩

theorem devStdinRead_inv (hi : s.Inv) (hp : s.frame p = none) (len : ℕ) :
    ∃ s', s.devStdinRead p len = some s' ∧ s'.Inv := by
  obtain ⟨ps, hq, hs⟩ := hi
  have hpend : update s.pending p [] = s.pending := by
    rw [Function.update_eq_self_iff]; simp [pending, hp]
  exact readLoop_inv hq hp (by rw [hpend]; exact hs) rfl (by simp)

/-- **`dev_stdin_read` after its `schedule()`.**  Its entry is still in the queue exactly if it was
    woken by `do_kill` alone. -/
theorem devStdinResume_inv (hi : s.Inv) (hp : s.frame p ≠ none)
    (hr : (s.kern.proc p).state = .runnable) : ∃ s', s.devStdinResume p = some s' ∧ s'.Inv := by
  obtain ⟨ps, hq, hs⟩ := hi
  obtain ⟨fr, hf⟩ := Option.ne_none_iff_exists'.1 hp
  obtain ⟨k, hk, hw, hproc, hwait, hnl, hl⟩ := Kern.waitCurrentDel_spec hq.waiting (hq.linked p hp)
  have hmem : ∀ q, q ∈ ps.erase p ↔ q ≠ p ∧ q ∈ ps := fun q => hq.waiting.nodup.mem_erase_iff
  obtain ⟨s₁, h₁⟩ : ∃ s₁ : Stdin P C,
      s₁ = { s with kern := k, frame := update s.frame p none } := ⟨_, rfl⟩
  have hf₁ : s₁.frame p = none := by rw [h₁]; exact update_self ..
  have hframe : ∀ q, q ≠ p → s₁.frame q = s.frame q := fun q hqp => by
    rw [h₁]; exact update_of_ne hqp ..
  have hq₁ : s₁.Queued (ps.erase p) := by
    subst h₁
    refine ⟨hw, ?_, ?_, ?_, ?_, ?_, ?_⟩
    · intro q hm
      rw [hframe q ((hmem q).1 hm).1]
      exact hq.framed q ((hmem q).1 hm).2
    · intro q hne hlk
      have hqp : q ≠ p := fun e => hne (e ▸ hf₁)
      rw [hframe q hqp] at hne
      exact (hmem q).2 ⟨hqp, hq.linked q hne ((hl q hqp).1 hlk)⟩
    · intro q hm
      rw [hframe q ((hmem q).1 hm).1]
      simpa [hwait, hproc] using hq.asleep q ((hmem q).1 hm).2
    · intro q hne hm
      have hqp : q ≠ p := fun e => hne (e ▸ hf₁)
      rw [hframe q hqp] at hne
      simpa [hwait, hproc] using hq.woken q hne fun hm' => hm ((hmem q).2 ⟨hqp, hm'⟩)
    · intro hne
      exact hq.drained fun e => hne (by simp [e])
    · intro q fr' hf'
      have hqp : q ≠ p := fun e => by rw [e, hf₁] at hf'; cases hf'
      exact hq.part q fr' (by rw [← hframe q hqp]; exact hf')
  have hs₁ : s₁.Shared (update s₁.pending p fr.buf) := by
    have hpend : update s₁.pending p fr.buf = s.pending := by
      funext q
      by_cases hqp : q = p
      · subst hqp; simp [pending, hf]
      · simp [pending, hqp, hframe q hqp]
    rw [hpend, h₁]
    exact ⟨hs.room, hs.count, hs.share, hs.exact⟩
  have hpart := hq.part p fr hf
  have hres : s.devStdinResume p = if (s.kern.wait p).wakeupFlags = wtKbd then
      s₁.readLoop p (fr.len - fr.ret) fr else some (s₁.leave p fr) := by
    simp only [devStdinResume, hf, hk, hwait, ← h₁, Option.bind_eq_bind, Option.bind_some]
  rw [hres]
  by_cases hm : p ∈ ps
  · obtain ⟨hfl, hsl⟩ := hq.asleep p hm
    have hne : ¬ (s.kern.wait p).wakeupFlags = wtKbd := by rw [hfl]; decide
    have hint : fr.interrupted ≠ false := fun hx => by
      rw [hsl fr hf hx] at hr; cases hr
    rw [if_neg hne]
    refine ⟨_, rfl, ps.erase p, ⟨hq₁.waiting, hq₁.framed, hq₁.linked, hq₁.asleep, hq₁.woken,
      hq₁.drained, hq₁.part⟩, hs₁.leave hf₁ ⟨hpart.1, hpart.2.le⟩ fun hx => absurd hx hint⟩
  · rw [if_pos (hq.woken p hp hm).1]
    exact readLoop_inv hq₁ hf₁ hs₁ hpart.1 (by omega)

/-! ## The other steps -/

/-- `if (!wait_queue_empty(wait_queue)) wakeup_queue(wait_queue, WT_KBD, 1)`, and what follows. -/
theorem wake_spec {σ : Type} {k : Kern Unit P} (h : k.Waiting () ps) :
    ∃ k' : Kern Unit P, k'.Waiting () [] ∧ Kern.Woken k k' ps wtKbd ∧
      ∀ n (f : Kern Unit P → Option σ), (if !k.waitQueueEmpty () then
          (k.wakeupQueue n () wtKbd true).bind f else (some k).bind f) =
        if ps.length ≤ n then f k' else none := by
  obtain ⟨k', hw, hwok, hk⟩ := Kern.wakeupQueue_spec h wtKbd
  by_cases he : ps = []
  · subst he
    have hem : k.waitQueueEmpty () = true := h.empty_iff.2 rfl
    exact ⟨k, h, ⟨by simp, fun _ _ => ⟨rfl, rfl, Iff.rfl⟩⟩, fun n f => by simp [hem]⟩
  · have hem : k.waitQueueEmpty () = false := by
      rw [← Bool.not_eq_true, h.empty_iff]; exact he
    refine ⟨k', hw, hwok, fun n f => ?_⟩
    rw [hem, hk]
    by_cases hn : ps.length ≤ n <;> simp [hn]

/-- **`dev_stdin_write`**, which takes a round for each process in the queue. -/
theorem devStdinWrite_inv (hi : s.Inv) (c : C) :
    ∃ m s', s'.Inv ∧ ∀ n, s.devStdinWrite n c = if m ≤ n then some s' else none := by
  by_cases hc : c ≠ 0
  · obtain ⟨ps, hq, hs⟩ := hi
    obtain ⟨k, hw, hwok, hk⟩ := wake_spec hq.waiting
    have hunlinked : ∀ p, s.frame p ≠ none → ¬ k.Linked p := fun p hp hl => by
      by_cases hm : p ∈ ps
      · exact (hwok.woken p hm).2.2 hl
      · exact hm (hq.linked p hp ((hwok.others p hm).2.2.1 hl))
    have hwoken : ∀ p, s.frame p ≠ none →
        (k.wait p).wakeupFlags = wtKbd ∧ (k.proc p).state = .runnable := fun p hp => by
      by_cases hm : p ∈ ps
      · obtain ⟨h1, h2, -⟩ := hwok.woken p hm
        exact ⟨by rw [h1], h2⟩
      · obtain ⟨h1, h2, -⟩ := hwok.others p hm
        rw [h1, h2]
        exact hq.woken p hp hm
    obtain ⟨w, hwdef⟩ : ∃ w, w = if s.wpos - s.rpos < stdinBufsize then s.wpos + 1 else s.wpos :=
      ⟨_, rfl⟩
    have hroom : s.rpos ≤ w ∧ w ≤ s.rpos + stdinBufsize := by
      have := hs.room
      rw [hwdef]; split_ifs <;> omega
    refine ⟨ps.length, { s with
        kern := k, buffer := update s.buffer (s.wpos % stdinBufsize) c, wpos := w,
        written := s.written ++ [c] },
      ⟨[], ⟨hw, by simp, fun p hp hl => absurd hl (hunlinked p hp), by simp,
        fun p hp _ => hwoken p hp, fun h => absurd rfl h, hq.part⟩,
        hroom, hs.count, hs.share, hs.exact⟩, fun n => ?_⟩
    simp only [devStdinWrite, if_pos hc, hwdef]
    by_cases hf : s.wpos - s.rpos < stdinBufsize
    · simp only [if_pos hf]
      exact hk n _
    · simp only [if_neg hf]
      exact hk n _
  · exact ⟨0, s, hi, fun n => by simp [devStdinWrite, hc]⟩

/-- The frame of a process that `do_kill` wakes. -/
def interrupt (s : Stdin P C) (p : P) : Option (Frame C) :=
  (s.frame p).map fun fr => { fr with interrupted := true }

theorem interrupt_none (h : s.interrupt p = none) : s.frame p = none := by
  simpa [interrupt] using h

/-- A process that waits can be made runnable, and any other process can change its state. -/
theorem Queued.setProc (hq : s.Queued ps) {g : Proc} (hg : s.frame p ≠ none → g.state = .runnable) :
    ({ s with kern := s.kern.setProc p g, frame := update s.frame p (s.interrupt p) } :
      Stdin P C).Queued ps := by
  have hframe : ∀ q, update s.frame p (s.interrupt p) q ≠ none → s.frame q ≠ none := fun q h => by
    by_cases hqp : q = p
    · subst hqp
      rw [update_self] at h
      exact fun hn => h (by simp [interrupt, hn])
    · rwa [update_of_ne hqp] at h
  refine ⟨⟨hq.waiting.ring, hq.waiting.entry, ?_⟩, ?_, fun q h => hq.linked q (hframe q h), ?_, ?_,
    hq.drained, ?_⟩
  · intro q hm
    by_cases hqp : q = p
    · subst hqp; simp [hg (hq.framed q hm)]
    · simpa [hqp] using hq.waiting.alive q hm
  · intro q hm
    by_cases hqp : q = p
    · subst hqp
      dsimp only
      rw [update_self]
      exact fun h => hq.framed q hm (interrupt_none h)
    · simpa [hqp] using hq.framed q hm
  · intro q hm
    refine ⟨(hq.asleep q hm).1, fun fr hf hx => ?_⟩
    by_cases hqp : q = p
    · subst hqp
      dsimp only at hf
      rw [update_self] at hf
      obtain ⟨fr', -, rfl⟩ := Option.map_eq_some_iff.1 hf
      cases hx
    · dsimp only at hf
      rw [update_of_ne hqp] at hf
      simpa [hqp] using (hq.asleep q hm).2 fr hf hx
  · intro q h hm
    have hw := hq.woken q (hframe q h) hm
    by_cases hqp : q = p
    · subst hqp
      exact ⟨hw.1, by simp [hg (hframe q h)]⟩
    · simpa [hqp] using hw
  · intro q fr hf
    by_cases hqp : q = p
    · subst hqp
      dsimp only at hf
      rw [update_self] at hf
      obtain ⟨fr', hf', rfl⟩ := Option.map_eq_some_iff.1 hf
      exact hq.part q fr' hf'
    · dsimp only at hf
      rw [update_of_ne hqp] at hf
      exact hq.part q fr hf

theorem pending_interrupt (s : Stdin P C) (p : P) (k : Kern Unit P) :
    ({ s with kern := k, frame := update s.frame p (s.interrupt p) } : Stdin P C).pending =
      s.pending := by
  rw [pending_update, Function.update_eq_self_iff]
  simp [pending, interrupt, Option.map_map, Function.comp_def]

/-- **`do_kill`** of a process that is not a zombie. -/
theorem doKill_inv (hi : s.Inv) (hz : (s.kern.proc p).state ≠ .zombie) :
    ∃ r s', s.doKill p = some (r, s') ∧ s'.Inv := by
  obtain ⟨ps, hq, hs⟩ := hi
  simp only [doKill]
  split_ifs with h1 h2
  · obtain ⟨g, hg, hrun⟩ := Kern.wakeup_alive hz
    have hq' := hq.setProc (g := g) (p := p) fun _ => hrun
    refine ⟨.ok, { s with
        flags := update s.flags p (s.flags p ||| pfExiting), kern := s.kern.setProc p g
        frame := update s.frame p (s.interrupt p) },
      by simp [Kern.wakeupProc, hg, interrupt], ps, ⟨hq'.waiting, hq'.framed, hq'.linked,
      hq'.asleep, hq'.woken, hq'.drained, hq'.part⟩, ?_⟩
    have hpend := pending_interrupt s p (s.kern.setProc p g)
    refine ⟨hs.room, hs.count, fun q => ?_, hs.exact⟩
    exact (hs.share q).trans (congrArg (s.returned q ++ ·) (congrFun hpend q).symm)
  · exact ⟨.ok, _, rfl, ps, ⟨hq.waiting, hq.framed, hq.linked, hq.asleep, hq.woken, hq.drained,
      hq.part⟩, hs.room, hs.count, hs.share, hs.exact⟩
  · exact ⟨.killed, s, rfl, ps, hq, hs⟩

theorem other_inv (hi : s.Inv) (hp : s.frame p = none) (g : Proc) :
    ({ s with kern := s.kern.setProc p g } : Stdin P C).Inv := by
  obtain ⟨ps, hq, hs⟩ := hi
  have hup : update s.frame p (s.interrupt p) = s.frame := by
    rw [Function.update_eq_self_iff]; simp [interrupt, hp]
  have hq' := hq.setProc (g := g) fun h => absurd hp h
  rw [hup] at hq'
  exact ⟨ps, hq', hs.room, hs.count, hs.share, hs.exact⟩

/-! ## Characters in order -/

/-- The characters delivered, and then the unread ones. -/
def stream (s : Stdin P C) : List C := s.log.map Prod.snd ++ s.unread

theorem readLoop_stream : ∀ {n : ℕ} {fr : Frame C} {s s' : Stdin P C},
    s.readLoop p n fr = some s' → s'.stream = s.stream ∧ s'.written = s.written := by
  intro n
  induction n with
  | zero =>
    intro fr s s' h
    cases h
    exact ⟨rfl, rfl⟩
  | succ n ih =>
    intro fr s s' h
    simp only [readLoop] at h
    split_ifs at h with hlt
    · obtain ⟨h1, h2⟩ := ih h
      refine ⟨h1.trans ?_, h2⟩
      simp only [stream, unread, contents_pop hlt]
      simp
    · obtain ⟨k, -, hk⟩ := Option.bind_eq_some_iff.1 h
      cases hk
      exact ⟨rfl, rfl⟩

/-- A read moves characters from the buffer to its reader. -/
theorem devStdinResume_stream (h : s.devStdinResume p = some s') :
    s'.stream = s.stream ∧ s'.written = s.written := by
  obtain ⟨fr, -, h⟩ := Option.bind_eq_some_iff.1 h
  obtain ⟨k, -, h⟩ := Option.bind_eq_some_iff.1 h
  dsimp only at h
  split_ifs at h
  · have hl := readLoop_stream h
    exact hl
  · cases h
    exact ⟨rfl, rfl⟩

theorem doKill_stream {r : KillResult} (h : s.doKill p = some (r, s')) :
    s'.stream = s.stream ∧ s'.written = s.written := by
  simp only [doKill] at h
  split_ifs at h
  · obtain ⟨k, -, hk⟩ := Option.bind_eq_some_iff.1 h
    cases hk
    exact ⟨rfl, rfl⟩
  · cases h
    exact ⟨rfl, rfl⟩
  · cases h
    exact ⟨rfl, rfl⟩

/-- The buffer holds `STDIN_BUFSIZE` unread characters. -/
def Full (s : Stdin P C) : Prop := s.wpos = s.rpos + stdinBufsize

theorem devStdinWrite_fields (hc : c ≠ 0) (h : s.devStdinWrite n c = some s') :
    s'.written = s.written ++ [c] ∧ s'.log = s.log ∧ s'.frame = s.frame ∧ s'.rpos = s.rpos ∧
      s'.wpos = (if s.wpos - s.rpos < stdinBufsize then s.wpos + 1 else s.wpos) ∧
      s'.buffer = update s.buffer (s.wpos % stdinBufsize) c := by
  simp only [devStdinWrite, if_pos hc] at h
  split_ifs at h ⊢ <;>
  · obtain ⟨k, -, hk⟩ := Option.bind_eq_some_iff.1 h
    cases hk
    exact ⟨rfl, rfl, rfl, rfl, rfl, rfl⟩

/-- **What `dev_stdin_write` does to the buffer.**  With room it appends the character; else the
    character takes the place of the oldest. -/
theorem devStdinWrite_unread (hroom : s.rpos ≤ s.wpos ∧ s.wpos ≤ s.rpos + stdinBufsize)
    (hc : c ≠ 0) (h : s.devStdinWrite n c = some s') :
    s'.written = s.written ++ [c] ∧ s'.log = s.log ∧
      (¬ s.Full → s'.unread = s.unread ++ [c]) ∧
      (s.Full → ∃ o rest, s.unread = o :: rest ∧ s'.unread = c :: rest) := by
  have hlen : 0 < stdinBufsize := by decide
  obtain ⟨h1, h2, -, h3, h4, h5⟩ := devStdinWrite_fields hc h
  refine ⟨h1, h2, fun hf => ?_, fun hf => ?_⟩
  · simp only [Full] at hf
    have hlt : s.wpos - s.rpos < stdinBufsize := by omega
    rw [if_pos hlt] at h4
    simp only [unread, h3, h4, h5]
    exact contents_push hroom.1 (by omega)
  · simp only [Full] at hf
    have hlt : ¬ s.wpos - s.rpos < stdinBufsize := by omega
    rw [if_neg hlt] at h4
    simp only [unread, h3, h4, h5, hf]
    exact ⟨_, _, contents_pop (by omega), contents_overwrite hlen⟩

end Stdin

end Ucore
