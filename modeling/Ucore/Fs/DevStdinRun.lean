/-
  Runs of the keyboard buffer.

  * `stdin_no_panic`: the steps of the writers and readers do not fail;
  * `stdin_never_stranded`: no reader sleeps while there are unread characters, no entry outlives
    its frame, a read that was not interrupted is complete, and each character goes to one reader;
  * `stdin_order`: a write leaves the unread characters alone exactly if the buffer has room for it
    (or the character is the oldest one), and where all writes do the characters come out in order;
  * `stdin_overwrites`: two characters that come out in the wrong order.
-/
import Ucore.Fs.DevStdinInv
import Mathlib.Data.List.Count

namespace Ucore

open Intrusive RingBuffer

set_option linter.unusedSectionVars false

variable {P C : Type} [DecidableEq P] [DecidableEq C] [Zero C]

namespace Stdin

variable {s s' : Stdin P C} {p : P} {n : ℕ} {c : C}

/-- At the start the buffer and the queue are empty, and no process reads. -/
def Start (s : Stdin P C) : Prop :=
  Circ s.kern.links (.waitHead ()) [] ∧ (∀ p, s.frame p = none) ∧ s.rpos = 0 ∧ s.wpos = 0 ∧
    s.written = [] ∧ s.log = [] ∧ s.returns = []

def machine (P C : Type) [DecidableEq P] [DecidableEq C] [Zero C] :
    Machine (Stdin P C) (StdinOp P C) where
  Init := Start
  Legal := Legal
  step := step

theorem Start.inv (h : s.Start) : s.Inv := by
  obtain ⟨hr, hf, h1, h2, h3, h4, h5⟩ := h
  refine ⟨[], ⟨⟨hr, by simp, by simp⟩, by simp, fun p hp => absurd (hf p) hp, by simp,
    fun p hp => absurd (hf p) hp, fun h => absurd rfl h, fun p fr hp => ?_⟩, ?_, ?_,
      fun p => ?_, ?_⟩
  · rw [hf p] at hp; cases hp
  · simp [h1, h2]
  · simp [h1, h4]
  · simp [taken, returned, pending, hf, h4, h5]
  · simp [h5]

theorem Inv.step {op : StdinOp P C} (hi : s.Inv) (hl : s.Legal op) (h : s.step op = some s') :
    s'.Inv := by
  cases op with
  | write n c =>
    obtain ⟨m, s₁, hi₁, hw⟩ := devStdinWrite_inv hi c
    have hs : s.devStdinWrite n c = some s' := h
    rw [hw] at hs
    split_ifs at hs
    cases hs
    exact hi₁
  | read p len =>
    obtain ⟨s₁, h₁, hi₁⟩ := devStdinRead_inv hi hl len
    obtain rfl : s₁ = s' := Option.some.inj (h₁.symm.trans h)
    exact hi₁
  | resume p =>
    obtain ⟨s₁, h₁, hi₁⟩ := devStdinResume_inv hi hl.1 hl.2
    obtain rfl : s₁ = s' := Option.some.inj (h₁.symm.trans h)
    exact hi₁
  | kill p =>
    obtain ⟨⟨r, s₁⟩, h₁, rfl⟩ := Option.map_eq_some_iff.1 h
    by_cases hz : (s.kern.proc p).state = .zombie
    · obtain ⟨ps, hq, hs⟩ := hi
      have hp : s.frame p = none := by
        by_contra hp
        by_cases hm : p ∈ ps
        · exact hq.waiting.alive p hm hz
        · rw [(hq.woken p hp hm).2] at hz; cases hz
      simp only [doKill, Kern.wakeupProc, Proc.wakeup, if_pos hz] at h₁
      split_ifs at h₁ with h2 h3
      · cases h₁
      · cases h₁
        exact ⟨ps, ⟨hq.waiting, hq.framed, hq.linked, hq.asleep, hq.woken, hq.drained, hq.part⟩,
          hs.room, hs.count, hs.share, hs.exact⟩
      · cases h₁
        exact ⟨ps, hq, hs⟩
    · obtain ⟨r', s₂, h₂, hi₂⟩ := doKill_inv hi hz
      rw [h₁] at h₂
      cases h₂
      exact hi₂
  | other p g =>
    obtain rfl := Option.some.inj h
    exact other_inv hi hl g

theorem reach_inv (h : (machine P C).Reach s) : s.Inv :=
  h.preserved (fun _ hs => hs.inv) fun _ _ _ hi hl hst => hi.step hl hst

/-- **No panic.**  A write has to be given a round for each process in the queue, and only a process
    that has exited cannot be woken. -/
theorem stdin_no_panic (h : (machine P C).Reach s) :
    (∀ c, ∃ m, ∀ n, m ≤ n → ∃ s', s.devStdinWrite n c = some s') ∧
    (∀ p len, s.frame p = none → ∃ s', s.devStdinRead p len = some s') ∧
    (∀ p, s.frame p ≠ none → (s.kern.proc p).state = .runnable →
      ∃ s', s.devStdinResume p = some s') ∧
    ∀ p, s.frame p ≠ none → ∃ r, s.doKill p = some r := by
  have hi := reach_inv h
  refine ⟨fun c => ?_, fun p len hp => ?_, fun p hp hr => ?_, fun p hp => ?_⟩
  · obtain ⟨m, s', -, hw⟩ := devStdinWrite_inv hi c
    exact ⟨m, fun n hn => ⟨s', by rw [hw, if_pos hn]⟩⟩
  · obtain ⟨s', h', -⟩ := devStdinRead_inv hi hp len
    exact ⟨s', h'⟩
  · obtain ⟨s', h', -⟩ := devStdinResume_inv hi hp hr
    exact ⟨s', h'⟩
  · obtain ⟨ps, hq, hs⟩ := hi
    have hz : (s.kern.proc p).state ≠ .zombie := by
      by_cases hm : p ∈ ps
      · exact hq.waiting.alive p hm
      · rw [(hq.woken p hp hm).2]; decide
    obtain ⟨r, s', h', -⟩ := doKill_inv ⟨ps, hq, hs⟩ hz
    exact ⟨_, h'⟩

/-! ## Order -/

/-- What one step does to the characters. -/
theorem step_stream {op : StdinOp P C} (hi : s.Inv) (h : s.step op = some s') :
    (s'.stream = s.stream ∧ s'.written = s.written) ∨
    ∃ n c, op = .write n c ∧ c ≠ 0 ∧ s'.written = s.written ++ [c] ∧ s'.log = s.log ∧
      (¬ s.Full → s'.unread = s.unread ++ [c]) ∧
      (s.Full → ∃ o rest, s.unread = o :: rest ∧ s'.unread = c :: rest) := by
  cases op with
  | write n c =>
    by_cases hc : c = 0
    · have hs : s.devStdinWrite n c = some s' := h
      simp only [devStdinWrite, hc, ne_eq, not_true, if_false, Option.some.injEq] at hs
      exact .inl (hs ▸ ⟨rfl, rfl⟩)
    · obtain ⟨ps, -, hsh⟩ := hi
      exact .inr ⟨n, c, rfl, hc, devStdinWrite_unread hsh.room hc h⟩
  | read p len => exact .inl (readLoop_stream h)
  | resume p => exact .inl (devStdinResume_stream h)
  | kill p =>
    obtain ⟨⟨r, s₁⟩, h₁, rfl⟩ := Option.map_eq_some_iff.1 h
    exact .inl (doKill_stream h₁)
  | other p g =>
    obtain rfl := Option.some.inj h
    exact .inl ⟨rfl, rfl⟩

/-- Every character delivered or unread is one that was written, and no written one is used
    twice. -/
theorem stream_subperm (h : (machine P C).Reach s) : s.stream.Subperm s.written := by
  have hboth : s.Inv ∧ s.stream.Subperm s.written := by
    refine h.preserved (I := fun s => s.Inv ∧ s.stream.Subperm s.written)
      (fun s hs => ⟨hs.inv, ?_⟩) fun s op s' hi hl hst => ⟨hi.1.step hl hst, ?_⟩
    · obtain ⟨-, -, h1, h2, -, h4, -⟩ := hs
      simp [stream, unread, h1, h2, h4]
    · obtain ⟨hinv, hsub⟩ := hi
      rcases step_stream hinv hst with ⟨h1, h2⟩ | ⟨n, c, -, -, hw, hlog, hroom, hfull⟩
      · rwa [h1, h2]
      by_cases hf : s.Full
      · obtain ⟨o, rest, h1, h2⟩ := hfull hf
        rw [stream, h1] at hsub
        rw [stream, hlog, h2, hw]
        exact Subperm.replace hsub
      · rw [stream, hlog, hroom hf, hw]
        exact Subperm.push hsub
  exact hboth.2

/-- What holds of the readers, where `ps` are the processes in the wait queue. -/
structure Served (s : Stdin P C) (ps : List P) : Prop where
  ring : Circ s.kern.links (.waitHead ()) (waitLinks ps)
  /-- No reader sleeps in the queue while there are unread characters. -/
  awake : ∀ p ∈ ps, (s.kern.proc p).state = .sleeping → s.unread = []
  /-- A reader that sleeps is in the queue. -/
  queued : ∀ p, s.frame p ≠ none → (s.kern.proc p).state = .sleeping → p ∈ ps
  /-- An entry in the queue is in the frame of its wait. -/
  framed : ∀ p ∈ ps, s.frame p ≠ none
  /-- A read that was not interrupted returns as many characters as it was asked for. -/
  exact : ∀ r ∈ s.returns, r.frame.ret = r.frame.buf.length ∧
    (r.frame.interrupted = false → r.frame.ret = r.frame.len)
  /-- Each position that was read is one delivery, to one reader. -/
  count : s.log.length = s.rpos
  /-- The characters delivered to a process are the ones its reads have stored. -/
  share : ∀ p, s.taken p = s.returned p ++ s.pending p
  /-- No character is delivered twice. -/
  once : (s.log.map Prod.snd).Subperm s.written

/-- **Keyboard readers are never stranded.** -/
theorem stdin_never_stranded (h : (machine P C).Reach s) : ∃ ps, s.Served ps := by
  obtain ⟨ps, hq, hs⟩ := reach_inv h
  refine ⟨ps, hq.waiting.ring, fun p hp _ => ?_, fun p hp hsl => ?_, hq.framed, fun r hr => ?_,
    hs.count, hs.share, ?_⟩
  · rw [unread, hq.drained (List.ne_nil_of_mem hp), contents_empty]
  · by_contra hm
    rw [(hq.woken p hp hm).2] at hsl
    cases hsl
  · exact ⟨(hs.exact r hr).1, (hs.exact r hr).2.2⟩
  · exact (List.sublist_append_left _ _).subperm.trans (stream_subperm h)

/-! ## Full buffers -/

/-- A write of `c` leaves the unread characters as they are, and drops `c` only if the buffer is
    full. -/
def Keeps (s : Stdin P C) (c : C) : Prop := ∀ n s', s.devStdinWrite n c = some s' →
  s'.unread = s.unread ++ [c] ∨ s.Full ∧ s'.unread = s.unread

/-- There is room for `c`, or `c` is the oldest unread character. -/
def Room (s : Stdin P C) (c : C) : Prop := s.Full → s.unread.head? = some c

/-- The runs in which all characters written find room. -/
def roomy (P C : Type) [DecidableEq P] [DecidableEq C] [Zero C] :
    Machine (Stdin P C) (StdinOp P C) :=
  { machine P C with Legal := fun s op => s.Legal op ∧ ∀ n c, op = .write n c → c ≠ 0 → s.Room c }

theorem keeps_iff (h : (machine P C).Reach s) (hc : c ≠ 0) : s.Keeps c ↔ s.Room c := by
  obtain ⟨ps, -, hsh⟩ := reach_inv h
  constructor
  · intro hk hf
    obtain ⟨m, hm⟩ := (stdin_no_panic h).1 c
    obtain ⟨s', hw⟩ := hm m le_rfl
    obtain ⟨-, -, -, hfull⟩ := devStdinWrite_unread hsh.room hc hw
    obtain ⟨o, rest, h1, h2⟩ := hfull hf
    rcases hk m s' hw with h3 | ⟨-, h3⟩
    · have := congrArg List.length h3
      simp [h1, h2] at this
    · rw [h1, h2] at h3
      rw [h1, (List.cons.inj h3).1, List.head?_cons]
  · intro hr n s' hw
    obtain ⟨-, -, hroom, hfull⟩ := devStdinWrite_unread hsh.room hc hw
    by_cases hf : s.Full
    · obtain ⟨o, rest, h1, h2⟩ := hfull hf
      have ho := hr hf
      rw [h1, List.head?_cons, Option.some.injEq] at ho
      exact .inr ⟨hf, by rw [h1, h2, ho]⟩
    · exact .inl (hroom hf)

theorem roomy_sublist (h : (roomy P C).Reach s) : s.Inv ∧ s.stream.Sublist s.written := by
  refine h.preserved (I := fun s => s.Inv ∧ s.stream.Sublist s.written)
    (fun s hs => ⟨Start.inv hs, ?_⟩) fun s op s' hi hl hst => ⟨hi.1.step hl.1 hst, ?_⟩
  · obtain ⟨-, -, h1, h2, -, h4, -⟩ := hs
    simp [stream, unread, h1, h2, h4]
  · obtain ⟨hinv, hsub⟩ := hi
    rcases step_stream hinv hst with ⟨h1, h2⟩ | ⟨n, c, hop, hc, hw, hlog, hroom, hfull⟩
    · rwa [h1, h2]
    by_cases hf : s.Full
    · obtain ⟨o, rest, h1, h2⟩ := hfull hf
      have ho := hl.2 n c hop hc hf
      rw [h1, List.head?_cons, Option.some.injEq] at ho
      rw [stream, hlog, h2, ← ho, ← h1, hw]
      exact Sublist.drop hsub
    · rw [stream, hlog, hroom hf, hw]
      exact Sublist.push hsub

/-- **The order of the keyboard buffer.**  A write keeps what is buffered exactly if it finds room;
    in a run whose writes all do, the characters are delivered in the order in which they were
    written. -/
theorem stdin_order (h : (machine P C).Reach s) :
    (∀ c, c ≠ 0 → (s.Keeps c ↔ s.Room c)) ∧
    ((roomy P C).Reach s → (s.log.map Prod.snd).Sublist s.written) :=
  ⟨fun _ hc => keeps_iff h hc, fun hr =>
    (List.sublist_append_left _ _).trans (roomy_sublist hr).2⟩

/-- A read that finds enough characters takes the oldest ones. -/
theorem readLoop_available : ∀ {n : ℕ} {f : Frame C} {s : Stdin P C}, n ≤ s.wpos - s.rpos →
    ∃ s', s.readLoop p n f = some s' ∧ s'.written = s.written ∧
      s'.log = s.log ++ (s.unread.take n).map fun c => (p, c) := by
  intro n
  induction n with
  | zero => intro f s _; exact ⟨_, rfl, rfl, by simp [Stdin.leave]⟩
  | succ n ih =>
    intro f s hn
    have hlt : s.rpos < s.wpos := by omega
    obtain ⟨s', h1, h2, h3⟩ := ih
      (f := { f with ret := f.ret + 1, buf := f.buf ++ [s.buffer (s.rpos % stdinBufsize)] })
      (s := { s with rpos := s.rpos + 1, log := s.log ++ [(p, s.buffer (s.rpos % stdinBufsize))] })
      (by dsimp only; omega)
    refine ⟨s', by simp only [readLoop, if_pos hlt]; exact h1, h2, ?_⟩
    have hun : s.unread = s.buffer (s.rpos % stdinBufsize) ::
      contents stdinBufsize s.buffer (s.rpos + 1) s.wpos := contents_pop hlt
    rw [h3, hun]
    simp [unread]

/-! ## A full buffer -/

def emptyStdin : Stdin ℕ (BitVec 8) where
  kern := ⟨fun _ => 0, listInit ⟨id, id⟩ (.waitHead ()), fun _ => ⟨none, 0, ()⟩,
    fun _ => ⟨.runnable, 0⟩, fun _ => none⟩
  flags _ := 0
  buffer _ := 0
  rpos := 0
  wpos := 0
  frame _ := none
  written := []
  log := []
  returns := []

theorem emptyStdin_start : emptyStdin.Start :=
  ⟨circ_listInit _ _, fun _ => rfl, rfl, rfl, rfl, rfl, rfl⟩

instance (s : Stdin P C) : (op : StdinOp P C) → Decidable (s.Legal op)
  | .write _ _ => inferInstanceAs (Decidable True)
  | .read p _ => inferInstanceAs (Decidable (s.frame p = none))
  | .resume p =>
    inferInstanceAs (Decidable (s.frame p ≠ none ∧ (s.kern.proc p).state = .runnable))
  | .kill _ => inferInstanceAs (Decidable True)
  | .other p _ => inferInstanceAs (Decidable (s.frame p = none))

instance (s : Stdin P C) (op : StdinOp P C) : Decidable ((machine P C).Legal s op) :=
  inferInstanceAs (Decidable (s.Legal op))

/-- A read of two characters gets one, waits for the other, and is interrupted. -/
theorem run_interrupted : ∃ s, (machine ℕ (BitVec 8)).Reach s ∧ s.log = [(0, 0x61#8)] ∧
    s.returns.length = 1 := by
  have hrun : ((machine ℕ (BitVec 8)).run emptyStdin
      [.read 0 2, .write 1 0x61#8, .resume 0, .kill 0, .resume 0]).map
        (fun s => (s.log, s.returns.length)) = some ([(0, 0x61#8)], 1) := by decide +kernel
  obtain ⟨s, hs, he⟩ := Option.map_eq_some_iff.1 hrun
  simp only [Prod.mk.injEq] at he
  exact ⟨s, (Machine.Reach.init emptyStdin_start).run hs, he⟩

theorem stdin_never_stranded_interrupted : ∃ s : Stdin ℕ (BitVec 8), s.log = [(0, 0x61#8)] ∧
    s.returns.length = 1 ∧ ∃ ps, s.Served ps := by
  obtain ⟨s, hr, h1, h2⟩ := run_interrupted
  exact ⟨s, h1, h2, stdin_never_stranded hr⟩

theorem stdin_order_interrupted : ∃ s : Stdin ℕ (BitVec 8), s.log = [(0, 0x61#8)] ∧
    ((∀ c, c ≠ 0 → (s.Keeps c ↔ s.Room c)) ∧
      ((roomy ℕ (BitVec 8)).Reach s → (s.log.map Prod.snd).Sublist s.written)) := by
  obtain ⟨s, hr, h1, -⟩ := run_interrupted
  exact ⟨s, h1, stdin_order hr⟩

/-- Writing one character again and again fills the buffer. -/
theorem reach_filled : ∀ n ≤ stdinBufsize, ∃ s : Stdin ℕ (BitVec 8),
    (machine ℕ (BitVec 8)).Reach s ∧ s.rpos = 0 ∧ s.wpos = n ∧ s.log = [] ∧
      s.written = List.replicate n 0x61#8 ∧ s.unread = List.replicate n 0x61#8 ∧
      ∀ p, s.frame p = none := by
  intro n
  induction n with
  | zero =>
    intro _
    exact ⟨emptyStdin, .init emptyStdin_start, rfl, rfl, rfl, rfl, rfl, fun _ => rfl⟩
  | succ n ih =>
    intro hn
    obtain ⟨s, hr, h1, h2, h3, h4, h5, h6⟩ := ih (by omega)
    obtain ⟨m, hm⟩ := (stdin_no_panic hr).1 0x61#8
    obtain ⟨s', hw⟩ := hm m le_rfl
    have hc : (0x61#8 : BitVec 8) ≠ 0 := by decide
    have hlt : s.wpos - s.rpos < stdinBufsize := by omega
    obtain ⟨g1, g2, g3, g4, g5, -⟩ := devStdinWrite_fields hc hw
    obtain ⟨-, -, g6, -⟩ := devStdinWrite_unread ⟨by omega, by omega⟩ hc hw
    have hstep : (machine ℕ (BitVec 8)).step s (.write m 0x61#8) = some s' := hw
    refine ⟨s', hr.step (i := .write m 0x61#8) trivial hstep, g4.trans h1, ?_, g2.trans h3, ?_, ?_,
      fun p => ?_⟩
    · rw [g5, if_pos hlt, h2]
    · rw [g1, h4, List.replicate_succ']
    · rw [g6 (by simp only [Full]; omega), h5, List.replicate_succ']
    · rw [g3, h6]

/-- **A full buffer.**  After 4096 times `a` a `b` is written; it is dropped, and takes the place of
    the oldest `a`. -/
theorem stdin_overwrites : ∃ s : Stdin ℕ (BitVec 8), (machine ℕ (BitVec 8)).Reach s ∧
    s.written = List.replicate 4096 0x61#8 ++ [0x62#8] ∧ s.log = [(0, 0x62#8), (0, 0x61#8)] ∧
    ¬ (s.log.map Prod.snd).Sublist s.written := by
  obtain ⟨s, hr, h1, h2, h3, h4, h5, h6⟩ := reach_filled 4096 le_rfl
  obtain ⟨m, hm⟩ := (stdin_no_panic hr).1 0x62#8
  obtain ⟨s₁, hw⟩ := hm m le_rfl
  have hc : (0x62#8 : BitVec 8) ≠ 0 := by decide
  have hfull : s.Full := by simp only [Full, h1, h2, stdinBufsize]
  obtain ⟨g1, g2, g3, g4, g5, -⟩ := devStdinWrite_fields hc hw
  obtain ⟨-, -, -, hover⟩ := devStdinWrite_unread ⟨by omega, by rw [h1, h2]; rfl⟩ hc hw
  obtain ⟨o, rest, hun, hun'⟩ := hover hfull
  have hrest : rest = List.replicate 4095 0x61#8 := by
    rw [h5, show (4096 : ℕ) = 4095 + 1 from rfl, List.replicate_succ] at hun
    exact (List.cons.inj hun).2.symm
  have hstep : (machine ℕ (BitVec 8)).step s (.write m 0x62#8) = some s₁ := hw
  have hr₁ : (machine ℕ (BitVec 8)).Reach s₁ := hr.step (i := .write m 0x62#8) trivial hstep
  have hlen : 2 ≤ s₁.wpos - s₁.rpos := by
    rw [g4, g5, h1, h2]
    decide
  obtain ⟨s₂, k1, k2, k3⟩ := readLoop_available (p := 0) (f := ⟨2, 0, [], false⟩) hlen
  have hstep₂ : (machine ℕ (BitVec 8)).step s₁ (.read 0 2) = some s₂ := k1
  have hlegal : (machine ℕ (BitVec 8)).Legal s₁ (.read 0 2) := (congrFun g3 0).trans (h6 0)
  have hlog : s₂.log = [(0, 0x62#8), (0, 0x61#8)] := by
    rw [k3, g2, h3, hun', hrest, show (4095 : ℕ) = 4094 + 1 from rfl, List.replicate_succ]
    rfl
  refine ⟨s₂, hr₁.step hlegal hstep₂, by rw [k2, g1, h4], hlog, ?_⟩
  rw [hlog, k2, g1, h4]
  intro hsub
  obtain ⟨l₁, l₂, he, hs₁, hs₂⟩ := List.sublist_append_iff.1 hsub
  cases l₁ with
  | nil =>
    have hl := hs₂.length_le
    rw [List.nil_append] at he
    simp [← he] at hl
  | cons x l₁ =>
    -- a `b` that comes before an `a` is among the first 4096 characters
    have hx : x = 0x62#8 := (List.cons.inj he).1.symm
    have hm := List.eq_of_mem_replicate (hs₁.subset List.mem_cons_self)
    rw [hx] at hm
    exact absurd hm (by decide)

end Stdin

end Ucore
