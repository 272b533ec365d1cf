/-
  The monitor is used by one thread at a time.

  `Token m a tok`: the right to be in the monitor is one token, held by a thread (running, or woken
  and on its way out of a `down`) or free in one of the semaphores.  Every step moves the token or
  leaves it where it is (`Token.active`, `Token.down`, `Token.up`, `Token.resume`).
-/
import Ucore.Sync.Monitor
import Ucore.Sync.SemInv

namespace Ucore

open Intrusive HandOff

set_option linter.unusedSectionVars false

variable {n : ℕ} {T : Type} [DecidableEq T]

namespace Pc

/-- The thread has the monitor: it has not yet performed the `up` that passes it on. -/
def Active : Pc n → Prop
  | out | entering | sigDown _ | sigAsleep _ | waitDown _ | waitAsleep _ => False
  | _ => True

/-- Suspended in `cond_signal`: the `up` is done, the `down` has not returned. -/
def SuspendedInSignal : Pc n → Prop
  | sigDown _ | sigAsleep _ => True
  | _ => False

/-- Suspended in `cond_wait` on `c`. -/
def SuspendedInWait (c : Fin n) : Pc n → Prop
  | waitDown d | waitAsleep d => d = c
  | _ => False

/-- Between `next_count++` and `next_count--`. -/
def InSignal : Pc n → Prop
  | sigUp _ | sigDown _ | sigAsleep _ | sigDec _ => True
  | _ => False

/-- Between `count++` and `count--` of the condition `c`. -/
def InWait (c : Fin n) : Pc n → Prop
  | waitTest d | waitUp d _ | waitDown d | waitAsleep d | waitDec d => d = c
  | _ => False

instance : DecidablePred (Active (n := n)) := fun pc => by
  cases pc <;> first | exact instDecidableTrue | exact instDecidableFalse

instance : DecidablePred (SuspendedInSignal (n := n)) := fun pc => by
  cases pc <;> first | exact instDecidableTrue | exact instDecidableFalse

instance (c : Fin n) : DecidablePred (SuspendedInWait c) := fun pc => by
  cases pc <;> first | exact instDecidableFalse | exact instDecidableEqFin _ _ _

instance : DecidablePred (InSignal (n := n)) := fun pc => by
  cases pc <;> first | exact instDecidableTrue | exact instDecidableFalse

instance (c : Fin n) : DecidablePred (InWait c) := fun pc => by
  cases pc <;> first | exact instDecidableFalse | exact instDecidableEqFin _ _ _

theorem not_active_of_sem {pc : Pc n} {s : MonSem n} (h : pc.sem = some s) : ¬ pc.Active := by
  cases pc <;> simp [sem, Active] at h ⊢

end Pc

/-- Who has the monitor: a thread, or whoever takes the permit of a semaphore next. -/
inductive Holder (n : ℕ) (T : Type) where
  | thread (t : T)
  | free (s : MonSem n)
  deriving DecidableEq

namespace Monitor

variable {m m' : Monitor n T} {a : MonSem n → Sema T} {tok : Holder n T} {s : MonSem n} {t u : T}
  {pc pc' : Pc n} {c : Fin n}

/-- The thread runs in the monitor, or has been woken to do so. -/
def Owns (m : Monitor n T) (a : MonSem n → Sema T) (t : T) : Prop :=
  (m.pc t).Active ∨ ∃ s, (m.pc t).sem = some s ∧ t ∉ (a s).queue

structure Token (m : Monitor n T) (a : MonSem n → Sema T) (tok : Holder n T) : Prop where
  ok : m.kern.Ok (fun _ => True) a
  sleeps : ∀ t, m.kern.inDown t = (m.pc t).sem
  owner : ∀ t, m.Owns a t ↔ tok = .thread t
  value : ∀ s, (a s).value = if tok = .free s then 1 else 0

@[simp] theorem goto_kern (m : Monitor n T) (t : T) (pc : Pc n) : (m.goto t pc).kern = m.kern := rfl

@[simp] theorem goto_pc (m : Monitor n T) (t u : T) (pc : Pc n) :
    (m.goto t pc).pc u = if u = t then pc else m.pc u := by
  simp [goto, Function.update_apply]

theorem Token.active_holds (h : Token m a tok) (ha : (m.pc t).Active) : tok = .thread t :=
  (h.owner t).1 (Or.inl ha)

/-- The holder of the token is the only one. -/
theorem Token.owns_iff (h : Token m a (.thread t)) : m.Owns a u ↔ u = t := by
  rw [h.owner, Holder.thread.injEq, eq_comm]

/-- **Running on** in the monitor. -/
theorem Token.active (h : Token m a tok) (ha : (m.pc t).Active) (ha' : pc.Active)
    (hs : pc.sem = none) (hk : m'.kern = m.kern) (hp : m'.pc = m.pc) :
    Token (m'.goto t pc) a tok := by
  have hm : ∀ u, (m'.goto t pc).Owns a u ↔ m.Owns a u := fun u => by
    by_cases hu : u = t
    · subst hu; simp [Owns, ha, ha']
    · simp [Owns, hu, hp]
  refine ⟨by simpa [hk] using h.ok, fun u => ?_, fun u => by rw [hm, h.owner], h.value⟩
  by_cases hu : u = t
  · subst hu
    have : (m.pc u).sem = none := by
      cases hq : (m.pc u).sem with
      | none => rfl
      | some s => exact absurd ha (Pc.not_active_of_sem hq)
    simp [hk, hs, h.sleeps, this]
  · simp [hk, hu, hp, h.sleeps]

/-- **`down`** takes the token when it is free in the semaphore, and waits for it otherwise. -/
theorem Token.down (awake asleep : Pc n) (h : Token m a tok) (hna : ¬ (m.pc t).Active)
    (hs : (m.pc t).sem = none) (haw : awake.Active) (haws : awake.sem = none)
    (has : asleep.sem = some s) :
    ∃ m' a' tok', m.down s t awake asleep = some m' ∧ Token m' a' tok' ∧
      m'.nextCount = m.nextCount ∧ m'.count = m.count ∧
      ((tok = .free s ∧ tok' = .thread t ∧ m'.pc = Function.update m.pc t awake) ∨
        (tok' = tok ∧ m'.pc = Function.update m.pc t asleep)) := by
  obtain ⟨k, hk, ok, hin, -⟩ := Kern.down_spec (p := t) h.ok (s := s) trivial (by rw [h.sleeps, hs])
  have hval := h.value s
  have hown : ∀ u ≠ t, ∀ a' : MonSem n → Sema T, (∀ s', u ∈ (a' s').queue ↔ u ∈ (a s').queue) →
      ∀ pc k', (({ m with kern := k' } : Monitor n T).goto t pc).Owns a' u ↔ m.Owns a u :=
    fun u hu a' ha' pc k' => by simp [Owns, hu, ha']
  by_cases hf : tok = .free s
  · have hv : (a s).value = 1 := by simp [hval, hf]
    refine ⟨({ m with kern := k } : Monitor n T).goto t awake, _, .thread t,
      by simp [Monitor.down, hk, hv], ⟨ok, fun u => ?_, fun u => ?_,
      fun s' => ?_⟩, rfl, rfl, Or.inl ⟨hf, rfl, rfl⟩⟩
    · by_cases hu : u = t
      · subst hu; simp [hin, hv, haws]
      · simp [hin, hu, h.sleeps]
    · by_cases hu : u = t
      · subst hu; simp [Owns, haw]
      · rw [hown u hu]
        · simp [h.owner, hf, Ne.symm hu]
        · intro s'; by_cases hs' : s' = s
          · subst hs'; simp [Sema.down, hv]
          · simp [hs']
    · by_cases hs' : s' = s
      · subst hs'; simp [Sema.down, hv]
      · simp [hs', h.value, hf, Ne.symm hs']
  · have hv : ¬ 0 < (a s).value := by simp [hval, hf]
    refine ⟨({ m with kern := k } : Monitor n T).goto t asleep, _, tok,
      by simp [Monitor.down, hk, hv], ⟨ok, fun u => ?_, fun u => ?_,
      fun s' => ?_⟩, rfl, rfl, Or.inr ⟨rfl, rfl⟩⟩
    · by_cases hu : u = t
      · subst hu; simp [hin, hv, has]
      · simp [hin, hu, h.sleeps]
    · by_cases hu : u = t
      · subst hu
        have hno : ¬ m.Owns a u := by
          rintro (h1 | ⟨s', h1, -⟩)
          exacts [hna h1, by simp [hs] at h1]
        rw [h.owner] at hno
        simp [Owns, Pc.not_active_of_sem has, has, Sema.down, hv, hno]
      · rw [hown u hu, h.owner]
        intro s'; by_cases hs' : s' = s
        · subst hs'; simp [Sema.down, hv, hu]
        · simp [hs']
    · by_cases hs' : s' = s
      · subst hs'; simpa [Sema.down, hv] using hval
      · simp [hs', h.value]

/-- **`up`** by the thread that has the token: it goes to the first waiter of the semaphore, or is
    free in it. -/
theorem Token.up (s : MonSem n) (pc : Pc n) (h : Token m a (.thread t)) (ha : (m.pc t).Active)
    (hna : ¬ pc.Active)
    (hs : pc.sem = none) :
    ∃ m' a' tok', m.up s t pc = some m' ∧ Token m' a' tok' ∧
      m'.nextCount = m.nextCount ∧ m'.count = m.count ∧ m'.pc = Function.update m.pc t pc ∧
      (tok' = .free s ∨ ∃ u ≠ t, tok' = .thread u ∧ (m.pc u).sem = some s) := by
  have h0 : (a s).value = 0 := by simp [h.value]
  obtain ⟨k, hk, ok, hin, -⟩ := Kern.up_spec h.ok (s := s) trivial (by omega)
  have hts : (m.pc t).sem = none := by
    cases hq : (m.pc t).sem with
    | none => rfl
    | some s => exact absurd ha (Pc.not_active_of_sem hq)
  have hsl : ∀ u, k.inDown u = ((Function.update m.pc t pc) u).sem := fun u => by
    by_cases hu : u = t
    · subst hu; simp [hin, h.sleeps, hts, hs]
    · simp [hin, h.sleeps, hu]
  cases hq : (a s).queue with
  | nil =>
    refine ⟨({ m with kern := k } : Monitor n T).goto t pc, _, .free s,
      by simp [Monitor.up, hk], ⟨ok, hsl, fun u => ?_, fun s' => ?_⟩,
      rfl, rfl, rfl, Or.inl rfl⟩
    · by_cases hu : u = t
      · subst hu; simp [Owns, hna, hs]
      · have : ¬ m.Owns a u := by rw [h.owns_iff]; exact hu
        have hqs : ∀ s', (Function.update a s (a s).up.1 s').queue = (a s').queue := fun s' => by
          by_cases hs' : s' = s
          · subst hs'; simp [Sema.up, hq]
          · simp [hs']
        simpa [Owns, hu, hqs] using this
    · by_cases hs' : s' = s
      · subst hs'; simp [Sema.up, hq, h0]
      · simp [hs', h.value, Ne.symm hs']
  | cons p ps =>
    obtain ⟨hinp, -⟩ := h.ok.asleep s trivial p (by simp [hq])
    rw [h.sleeps] at hinp
    have hpt : p ≠ t := by rintro rfl; rw [hts] at hinp; cases hinp
    have hps : p ∉ ps := by
      have := (h.ok.ring s trivial).nodup_tail
      rw [hq] at this
      exact fun hm => (List.nodup_cons.1 this).1 (List.mem_map_of_mem hm)
    refine ⟨({ m with kern := k } : Monitor n T).goto t pc, _, .thread p,
      by simp [Monitor.up, hk], ⟨ok, hsl, fun u => ?_, fun s' => ?_⟩,
      rfl, rfl, rfl, Or.inr ⟨p, hpt, rfl, hinp⟩⟩
    · by_cases hu : u = t
      · subst hu; simp [Owns, hna, hs, hpt]
      · by_cases hup : u = p
        · subst hup
          simp only [Owns, goto_pc, hu, if_false, iff_true]
          exact Or.inr ⟨s, hinp, by simpa [Sema.up, hq] using hps⟩
        · have hno : ¬ m.Owns a u := by rw [h.owns_iff]; exact hu
          have hqs : ∀ s', u ∈ (Function.update a s (a s).up.1 s').queue ↔ u ∈ (a s').queue := by
            intro s'; by_cases hs' : s' = s
            · subst hs'; simp [Sema.up, hq, hup]
            · simp [hs']
          simpa [Owns, hu, hqs, Ne.symm hup] using hno
    · by_cases hs' : s' = s
      · subst hs'; simp [Sema.up, hq, h0]
      · simp [hs', h.value]

/-- **The return** of a `down` that was woken: the thread has the token. -/
theorem Token.resume {awake : Pc n} (h : Token m a tok) (hs : (m.pc t).sem = some s)
    (hr : (m.kern.proc t).state = .runnable) (haw : awake.Active) (haws : awake.sem = none) :
    ∃ m', m.downResume s t awake = some m' ∧ tok = .thread t ∧ Token m' a tok ∧
      m'.nextCount = m.nextCount ∧ m'.count = m.count ∧
      m'.pc = Function.update m.pc t awake := by
  have hd : m.kern.inDown t = some s := by rw [h.sleeps, hs]
  obtain ⟨hq, hk, ok⟩ := Kern.downResume_spec h.ok hd hr
  have htok : tok = .thread t := (h.owner t).1 (Or.inr ⟨s, hs, hq⟩)
  refine ⟨({ m with kern := m.kern.setInDown t none } : Monitor n T).goto t awake,
    by simp [Monitor.downResume, hk], htok, ⟨ok, fun u => ?_, fun u => ?_, h.value⟩,
    rfl, rfl, rfl⟩
  · by_cases hu : u = t
    · subst hu; simp [haws]
    · simp [hu, h.sleeps]
  · by_cases hu : u = t
    · subst hu; simp [Owns, haw, htok]
    · rw [← h.owner]; simp [Owns, hu]

end Monitor

end Ucore
