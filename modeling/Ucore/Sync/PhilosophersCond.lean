/-
  The philosophers with a monitor.

  `CondRules pc tok f place`: the moods and the places in the monitor's code fit the places of the
  philosophers (`Seat`); the one that is about to let somebody eat may do so (`Aims`); whoever has
  been passed the monitor in `cond_wait` eats; and while a philosopher is suspended in
  `cond_signal`, the monitor is on its way to the philosopher it has signalled and back (`Passed`).

  * `CondRules.active`: a statement inside the monitor;
  * `CondRules.take`, `CondRules.block`: the two outcomes of a `down`;
  * `CondRules.signal`, `CondRules.leave`: the `up` of `cond_signal`, and those that leave the
    monitor;
  * `PhiCondvar.Inv.step`, `PhiCondvar.Inv.dined`: every step keeps the rules, and the
    philosophers dine.
-/
import Ucore.Sync.PhilosophersSema
import Ucore.Sync.MonitorRun

namespace Ucore.Philosophers

open Dining HandOff

/-! ## Places -/

/-- In `cond_signal` on `c`. -/
def Signals (c : Fin N) (pc : Pc N) : Prop :=
  pc = .sigInc c ∨ pc = .sigUp c ∨ pc = .sigDown c ∨ pc = .sigAsleep c ∨ pc = .sigDec c

namespace CondPlace

/-- The philosophers still to be looked at. -/
def todo (i : Fin N) : CondPlace → Set (Fin N)
  | test c | eat c => c.todo i
  | signal c => c.rest i
  | _ => ∅

/-- Mood of the philosopher, and its place in the monitor's code. -/
def Seat (i : Fin N) (a : Mood) (pc : Pc N) : CondPlace → Prop
  | thinking => a = .thinking ∧ (pc = .out ∨ ∃ b, pc = .exitUp b)
  | takeSet => a = .thinking ∧ (pc = .entering ∨ pc = .body)
  | test .self => a = .hungry ∧ pc = .body
  | test .left => a = .thinking ∧ pc = .body
  | test .right => a = .thinking ∧ (pc = .body ∨ Signals (left i) pc)
  | eat c => a = (if c = .self then .hungry else .thinking) ∧ pc = .body
  | signal c => a = (if c = .self then .eating else .thinking) ∧ pc = .body
  | check => a ≠ .thinking ∧ pc = .body
  | wait => a ≠ .thinking ∧ pc = .body
  | takeLeave => (a = .eating ∧ (pc = .body ∨ pc = .waitDec i)) ∨
      (a ≠ .thinking ∧
        (pc = .waitTest i ∨ (∃ b, pc = .waitUp i b) ∨ pc = .waitDown i ∨ pc = .waitAsleep i))
  | eating => a = .eating ∧ (pc = .out ∨ ∃ b, pc = .exitUp b)
  | putSet => a = .eating ∧ (pc = .entering ∨ pc = .body)
  | putLeave => a = .thinking ∧ (pc = .body ∨ Signals (right i) pc)

/-- The one who is about to eat may do so; the one who is signalled eats. -/
def Aims (f : Fin N → Mood) (i : Fin N) (pc : Pc N) (p : CondPlace) : Prop :=
  (pc = .body → ∀ c, (p = eat c → f (c.who i) = .hungry ∧ Free table f (c.who i)) ∧
    (p = signal c → f (c.who i) = .eating)) ∧
  ∀ c, pc = .sigInc c ∨ pc = .sigUp c → f c = .eating

/-- Has been woken in `cond_wait`, and has not left the monitor yet. -/
def Returns (i : Fin N) (pc : Pc N) (p : CondPlace) : Prop :=
  (p = takeLeave ∧ (pc = .waitAsleep i ∨ pc = .waitDec i ∨ pc = .body)) ∨
    (p = eating ∧ pc = .exitUp true)

variable {f : Fin N → Mood} {place : Fin N → CondPlace} {i t c : Fin N} {pc : Pc N}
  {p x : CondPlace} {s : MonSem N}

theorem todo_next (c : Call) : c.condNext.todo i = c.rest i := by cases c <;> rfl

theorem todo_update : (fun i => (Function.update place t x i).todo i) =
    Function.update (fun i => (place i).todo i) t (x.todo t) := by
  funext i
  by_cases h : i = t
  · subst h; simp
  · simp [h]

theorem Aims.of_not_active (h : ¬ pc.Active) : Aims f i pc p := by
  refine ⟨?_, ?_⟩
  · rintro rfl; exact absurd trivial h
  · rintro c (rfl | rfl) <;> exact absurd trivial h

theorem Aims.of_place (h : ∀ c, p ≠ eat c ∧ p ≠ signal c) : Aims f i .body p :=
  ⟨fun _ c => ⟨fun he => absurd he (h c).1, fun he => absurd he (h c).2⟩, by simp⟩

/-- A hungry philosopher outside the monitor waits in `cond_wait`. -/
theorem Seat.fed (h : Seat i .hungry pc p) (hp : ¬ pc.Active) : Seat i .eating pc p := by
  cases p with
  | test c => cases c <;> simp_all [Seat, Pc.Active]
  | eat c | signal c => simp only [Seat] at h; exact absurd (by rw [h.2]; trivial) hp
  | _ => simp_all [Seat, Pc.Active]

theorem not_inWait {d : Fin N} (h : pc = .body ∨ Signals d pc) : ¬ pc.InWait c := by
  rcases h with rfl | rfl | rfl | rfl | rfl | rfl <;> exact id

/-- A philosopher waits for its own condition only. -/
theorem Seat.inWait {a : Mood} (h : Seat i a pc p) (hw : pc.InWait c) : c = i ∧ p = takeLeave := by
  have hbody : pc ≠ .body := by rintro rfl; exact hw
  cases p with
  | takeLeave =>
    refine ⟨?_, rfl⟩
    obtain ⟨-, rfl | rfl⟩ | ⟨-, rfl | ⟨b, rfl⟩ | rfl | rfl⟩ := h
    · exact hw.elim
    all_goals exact hw.symm
  | thinking | eating =>
    obtain ⟨-, rfl | ⟨b, rfl⟩⟩ := h <;> exact hw.elim
  | takeSet | putSet =>
    obtain ⟨-, rfl | rfl⟩ := h <;> exact hw.elim
  | putLeave => exact absurd hw (not_inWait h.2)
  | check | wait | eat c | signal c => exact absurd h.2 hbody
  | test c =>
    cases c with
    | right => exact absurd hw (not_inWait h.2)
    | self | left => exact absurd h.2 hbody

/-- In `cond_signal`, and on the return from it, the seat is the same. -/
theorem Seat.signals {a : Mood} {x : Pc N} (h : Seat i a pc p) (hs : Signals c pc)
    (hx : x = .body ∨ Signals c x) : Seat i a x p := by
  have hbody : pc ≠ .body := by rintro rfl; rcases hs with h | h | h | h | h <;> cases h
  have hsame : ∀ {d}, pc = .body ∨ Signals d pc → x = .body ∨ Signals d x := fun {d} hd => by
    have hcd : c = d := by
      rcases hd.resolve_left hbody with rfl | rfl | rfl | rfl | rfl <;>
        simpa [Signals, eq_comm] using hs
    exact hcd ▸ hx
  have hout : pc ≠ .out ∧ pc ≠ .entering ∧ ∀ b, pc ≠ .exitUp b := by
    rcases hs with rfl | rfl | rfl | rfl | rfl <;> simp
  have hwait : ¬ pc.InWait i := not_inWait (Or.inr hs)
  cases p with
  | thinking | eating => exact absurd h.2 (by simp [hout])
  | takeSet | putSet => exact absurd h.2 (by simp [hout, hbody])
  | putLeave => exact ⟨h.1, hsame h.2⟩
  | check | wait | eat c | signal c => exact absurd h.2 hbody
  | takeLeave =>
    refine absurd ?_ hwait
    obtain ⟨-, rfl | rfl⟩ | ⟨-, rfl | ⟨b, rfl⟩ | rfl | rfl⟩ := h
    · exact absurd rfl hbody
    all_goals exact rfl
  | test c =>
    cases c with
    | right => exact ⟨h.1, hsame h.2⟩
    | self | left => exact absurd h.2 hbody

theorem Seat.not_eat {a : Mood} (h : Seat i a pc p) (hb : pc ≠ .body) (d : Call) :
    p ≠ eat d ∧ p ≠ signal d :=
  ⟨fun hp => by rw [hp] at h; exact hb h.2, fun hp => by rw [hp] at h; exact hb h.2⟩

/-- A procedure of the monitor has been entered, or left. -/
theorem Seat.entered {a : Mood} (h : Seat i a .entering p) : Seat i a .body p := by
  cases p with
  | test c => cases c <;> simp_all [Seat]
  | _ => simp_all [Seat]

theorem Seat.left {a : Mood} {b : Bool} (h : Seat i a (.exitUp b) p) : Seat i a .out p := by
  cases p with
  | test c => cases c <;> simp [Seat, Signals] at h
  | _ => simp_all [Seat, Signals]

theorem Seat.ne_thinking {a : Mood} (h : Seat i a pc p) (hp : p = takeLeave) : a ≠ .thinking := by
  subst hp
  rintro rfl
  simp [Seat] at h

theorem not_returns (h : Signals c pc) : ¬ Returns i pc p := by
  rintro (⟨-, hr⟩ | ⟨-, hr⟩)
  · rcases h with rfl | rfl | rfl | rfl | rfl <;> simp at hr
  · rcases h with rfl | rfl | rfl | rfl | rfl <;> cases hr

end CondPlace

open CondPlace

structure CondRules (pc : Fin N → Pc N) (tok : Holder N (Fin N)) (f : Fin N → Mood)
    (place : Fin N → CondPlace) : Prop where
  seat : ∀ i, Seat i (f i) (pc i) (place i)
  aims : ∀ i, Aims f i (pc i) (place i)
  handed : ∀ c, tok = .free (.cv c) ∨ tok = .thread c ∧ pc c = .waitAsleep c → f c = .eating
  passed : ∀ t c, pc t = .sigDown c ∨ pc t = .sigAsleep c →
    (tok = .free (.cv c) ∧ (pc c).SuspendedInWait c) ∨
      (tok = .thread c ∧ Returns c (pc c) (place c)) ∨ tok = .free .next ∨ tok = .thread t
  one : ∀ t u, (pc t).SuspendedInSignal → (pc u).SuspendedInSignal → t = u
  apart : Apart table f
  served : Served table f fun i => (place i).todo i

variable {pc : Fin N → Pc N} {tok : Holder N (Fin N)} {f f' : Fin N → Mood}
  {place : Fin N → CondPlace} {i t c : Fin N} {x : Pc N} {y : CondPlace} {s : MonSem N}

theorem suspended_iff {x : Pc N} :
    x.SuspendedInSignal ↔ ∃ c, x = .sigDown c ∨ x = .sigAsleep c := by
  cases x <;> simp [Pc.SuspendedInSignal]

/-! ## Steps and the rules -/

/-- Nobody is suspended in `cond_signal` while a philosopher has the monitor that has not been
    passed it. -/
theorem CondRules.none_suspended (h : CondRules pc (.thread t) f place)
    (ht : ¬ (pc t).SuspendedInSignal) (hr : ¬ Returns t (pc t) (place t)) (u : Fin N) :
    ¬ (pc u).SuspendedInSignal := by
  intro hu
  obtain ⟨c, hc⟩ := suspended_iff.1 hu
  obtain ⟨hf, -⟩ | ⟨hc', hret⟩ | hf | hu' := h.passed u c hc
  · cases hf
  · obtain rfl : t = c := by simpa using hc'
    exact hr hret
  · cases hf
  · obtain rfl : t = u := by simpa using hu'
    exact ht hu

/-- **A statement in the monitor**, or the return of a `down`, by the philosopher that has it. -/
theorem CondRules.active (h : CondRules pc (.thread t) f place) (hx : x.Active)
    (hseat : Seat t (f' t) x y) (haims : Aims f' t x y)
    (hothers : ∀ j ≠ t, ¬ (pc j).Active → Seat j (f j) (pc j) (place j) →
      Seat j (f' j) (pc j) (place j))
    (halone : ∀ j ≠ t, ¬ (pc j).Active)
    (hret : ∀ u, (pc u).SuspendedInSignal → Returns t (pc t) (place t) → Returns t x y)
    (ha : Apart table f')
    (hs : Served table f' (Function.update (fun i => (place i).todo i) t (y.todo t))) :
    CondRules (Function.update pc t x) (.thread t) f' (Function.update place t y) where
  seat i := by
    by_cases hi : i = t
    · subst hi; simpa using hseat
    · rw [Function.update_of_ne hi, Function.update_of_ne hi]
      exact hothers i hi (halone i hi) (h.seat i)
  aims i := by
    by_cases hi : i = t
    · subst hi; simpa using haims
    · rw [Function.update_of_ne hi]; exact Aims.of_not_active (halone i hi)
  handed c hc := by
    obtain hf | ⟨hc, hp⟩ := hc
    · cases hf
    · obtain rfl : t = c := by simpa using hc
      rw [Function.update_self] at hp
      subst hp
      exact hx.elim
  passed u c hu := by
    have hut : u ≠ t := by
      rintro rfl
      rw [Function.update_self] at hu
      rcases hu with rfl | rfl <;> exact hx.elim
    rw [Function.update_of_ne hut] at hu
    obtain ⟨hf, -⟩ | ⟨hc, hr⟩ | hf | hu' := h.passed u c hu
    · cases hf
    · obtain rfl : t = c := by simpa using hc
      refine Or.inr (Or.inl ⟨rfl, ?_⟩)
      rw [Function.update_self, Function.update_self]
      exact hret u (suspended_iff.2 ⟨_, hu⟩) hr
    · cases hf
    · exact absurd (by simpa using hu'.symm) hut
  one u v hu hv := by
    have hne : ∀ w, (Function.update pc t x w).SuspendedInSignal → w ≠ t ∧
        (pc w).SuspendedInSignal := fun w hw => by
      by_cases hwt : w = t
      · subst hwt
        rw [Function.update_self] at hw
        cases x <;> first | exact hw.elim | exact hx.elim
      · exact ⟨hwt, by rwa [Function.update_of_ne hwt] at hw⟩
    exact h.one u v (hne u hu).2 (hne v hv).2
  apart := ha
  served := by rwa [todo_update]

/-- A statement that changes nobody's mood. -/
theorem CondRules.keep (h : CondRules pc (.thread t) f place) (hx : x.Active)
    (hseat : Seat t (f t) x y) (haims : Aims f t x y) (halone : ∀ j ≠ t, ¬ (pc j).Active)
    (hret : ∀ u, (pc u).SuspendedInSignal → Returns t (pc t) (place t) → Returns t x y)
    (hw : (place t).todo t ⊆ y.todo t) :
    CondRules (Function.update pc t x) (.thread t) f (Function.update place t y) :=
  h.active hx hseat haims (fun _ _ _ hs => hs) halone hret h.apart (h.served.move hw)

/-- **A `down` that takes** the monitor. -/
theorem CondRules.take (h : CondRules pc (.free s) f place) (hx : x.Active)
    (hseat : Seat t (f t) x y) (haims : Aims f t x y) (hmove : y.todo t = (place t).todo t)
    (hcv : ∀ c, s = .cv c → c = t ∧ Returns t x y)
    (hnext : s = .next → (pc t).SuspendedInSignal) :
    CondRules (Function.update pc t x) (.thread t) f (Function.update place t y) where
  seat i := by
    by_cases hi : i = t
    · subst hi; simpa using hseat
    · rw [Function.update_of_ne hi, Function.update_of_ne hi]; exact h.seat i
  aims i := by
    by_cases hi : i = t
    · subst hi; simpa using haims
    · rw [Function.update_of_ne hi, Function.update_of_ne hi]; exact h.aims i
  handed c hc := by
    obtain hf | ⟨hc, hp⟩ := hc
    · cases hf
    · obtain rfl : t = c := by simpa using hc
      rw [Function.update_self] at hp
      subst hp
      exact hx.elim
  passed u c hu := by
    have hut : u ≠ t := by
      rintro rfl
      rw [Function.update_self] at hu
      rcases hu with rfl | rfl <;> exact hx.elim
    rw [Function.update_of_ne hut] at hu
    obtain ⟨hf, -⟩ | ⟨hf, -⟩ | hf | hf := h.passed u c hu
    · obtain ⟨rfl, hr⟩ := hcv c (by simpa using hf)
      refine Or.inr (Or.inl ⟨rfl, ?_⟩)
      rwa [Function.update_self, Function.update_self]
    · cases hf
    · exact absurd (h.one u t (suspended_iff.2 ⟨c, hu⟩) (hnext (by simpa using hf))) hut
    · cases hf
  one u v hu hv := by
    have hne : ∀ w, (Function.update pc t x w).SuspendedInSignal → (pc w).SuspendedInSignal :=
      fun w hw => by
        by_cases hwt : w = t
        · subst hwt
          rw [Function.update_self] at hw
          cases x <;> first | exact hw.elim | exact hx.elim
        · rwa [Function.update_of_ne hwt] at hw
    exact h.one u v (hne u hu) (hne v hv)
  apart := h.apart
  served := by rw [todo_update]; exact h.served.move hmove.ge

/-- **A `down` that waits** for the monitor. -/
theorem CondRules.block (h : CondRules pc tok f place) (ht : tok ≠ .thread t) (hx : ¬ x.Active)
    (hseat : Seat t (f t) x y) (hmove : y.todo t = (place t).todo t)
    (hsig : ∀ c, x = .sigDown c ∨ x = .sigAsleep c → pc t = .sigDown c)
    (hwait : ∀ c, (pc t).SuspendedInWait c → x.SuspendedInWait c) :
    CondRules (Function.update pc t x) tok f (Function.update place t y) where
  seat i := by
    by_cases hi : i = t
    · subst hi; simpa using hseat
    · rw [Function.update_of_ne hi, Function.update_of_ne hi]; exact h.seat i
  aims i := by
    by_cases hi : i = t
    · subst hi; simpa using Aims.of_not_active hx
    · rw [Function.update_of_ne hi, Function.update_of_ne hi]; exact h.aims i
  handed c hc := by
    refine h.handed c (hc.imp_right fun hc' => ?_)
    have hct : c ≠ t := fun he => ht (by rw [hc'.1, he])
    rwa [Function.update_of_ne hct] at hc'
  passed u c hu := by
    have hu' : pc u = .sigDown c ∨ pc u = .sigAsleep c := by
      by_cases hut : u = t
      · subst hut
        exact Or.inl (hsig c (by simpa using hu))
      · rwa [Function.update_of_ne hut] at hu
    refine (h.passed u c hu').imp (fun hc => ⟨hc.1, ?_⟩) (Or.imp_left fun hc => ⟨hc.1, ?_⟩)
    · by_cases hct : c = t
      · subst hct; simpa using hwait c hc.2
      · rw [Function.update_of_ne hct]; exact hc.2
    · have hct : c ≠ t := fun he => ht (by rw [hc.1, he])
      rw [Function.update_of_ne hct, Function.update_of_ne hct]; exact hc.2
  one u v hu hv := by
    have hne : ∀ w, (Function.update pc t x w).SuspendedInSignal → (pc w).SuspendedInSignal :=
      fun w hw => by
        by_cases hwt : w = t
        · subst hwt
          rw [Function.update_self] at hw
          obtain ⟨c, hc⟩ := suspended_iff.1 hw
          rw [hsig c hc]; trivial
        · rwa [Function.update_of_ne hwt] at hw
    exact h.one u v (hne u hu) (hne v hv)
  apart := h.apart
  served := by rw [todo_update]; exact h.served.move hmove.ge

/-- The philosopher `t` has passed the monitor on through `s`. -/
def PassedOn (pc : Fin N → Pc N) (t : Fin N) (s : MonSem N) (tok : Holder N (Fin N)) : Prop :=
  tok = .free s ∨ ∃ u ≠ t, tok = .thread u ∧ (pc u).sem = some s

/-- **The `up` of `cond_signal`** -/
theorem CondRules.signal (h : CondRules pc (.thread t) f place) (hp : pc t = .sigUp c)
    (hw : (pc c).SuspendedInWait c) (hpass : PassedOn pc t (.cv c) tok) :
    CondRules (Function.update pc t (.sigDown c)) tok f place := by
  have hnone := h.none_suspended (by rw [hp]; exact id) (by
    rintro (⟨-, hr | hr | hr⟩ | ⟨-, hr⟩) <;> rw [hp] at hr <;> cases hr)
  have hsig : ∀ u, (Function.update pc t (.sigDown c) u).SuspendedInSignal → u = t := fun u hu => by
    by_contra hut
    rw [Function.update_of_ne hut] at hu
    exact hnone u hu
  have hct : c ≠ t := by rintro rfl; rw [hp] at hw; exact hw
  have heat : f c = .eating := (h.aims t).2 c (Or.inr hp)
  have hasleep : ∀ u, (pc u).sem = some (.cv c) → u = c ∧ pc u = .waitAsleep c ∧
      place u = .takeLeave := fun u hu => by
    have hu' := Monitor.Pc.eq_waitAsleep hu
    obtain ⟨hcu, hpl⟩ := (h.seat u).inWait (c := c) (by rw [hu']; rfl)
    exact ⟨hcu.symm, hu', hpl⟩
  exact {
    seat := fun i => by
      by_cases hi : i = t
      · subst hi
        rw [Function.update_self]
        exact (h.seat i).signals (Or.inr (Or.inl hp)) (Or.inr (Or.inr (Or.inr (Or.inl rfl))))
      · rw [Function.update_of_ne hi]; exact h.seat i
    aims := fun i => by
      by_cases hi : i = t
      · subst hi; rw [Function.update_self]; exact Aims.of_not_active id
      · rw [Function.update_of_ne hi]; exact h.aims i
    handed := fun d hd => by
      obtain rfl | ⟨u, -, rfl, hu⟩ := hpass
      · obtain hd | ⟨hd, -⟩ := hd
        · obtain rfl : c = d := by simpa using hd
          exact heat
        · cases hd
      · obtain hd | ⟨hd, -⟩ := hd
        · cases hd
        · obtain rfl : u = d := by simpa using hd
          rw [(hasleep u hu).1]; exact heat
    passed := fun u d hu => by
      obtain rfl := hsig u (suspended_iff.2 ⟨d, hu⟩)
      obtain rfl : c = d := by simpa using hu
      obtain rfl | ⟨v, -, rfl, hv⟩ := hpass
      · exact Or.inl ⟨rfl, by rwa [Function.update_of_ne hct]⟩
      · obtain ⟨rfl, hv', hpl⟩ := hasleep v hv
        refine Or.inr (Or.inl ⟨rfl, ?_⟩)
        rw [Function.update_of_ne hct]
        exact Or.inl ⟨hpl, Or.inl hv'⟩
    one := fun u v hu hv => (hsig u hu).trans (hsig v hv).symm
    apart := h.apart
    served := h.served }

/-- **The `up` of `cond_wait`** and of the exit protocol. -/
theorem CondRules.leave (h : CondRules pc (.thread t) f place) (ht : ¬ (pc t).SuspendedInSignal)
    (hx : ¬ x.Active) (hxs : ¬ x.SuspendedInSignal) (hseat : Seat t (f t) x (place t))
    (hs : ∀ c, s ≠ .cv c) (hpass : PassedOn pc t s tok)
    (hret : Returns t (pc t) (place t) → s = .next) :
    CondRules (Function.update pc t x) tok f place where
  seat i := by
    by_cases hi : i = t
    · subst hi; simpa using hseat
    · rw [Function.update_of_ne hi]; exact h.seat i
  aims i := by
    by_cases hi : i = t
    · subst hi; simpa using Aims.of_not_active hx
    · rw [Function.update_of_ne hi]; exact h.aims i
  handed c hc := by
    obtain rfl | ⟨u, hut, rfl, hu⟩ := hpass
    · obtain hc | ⟨hc, -⟩ := hc
      · exact absurd (by simpa using hc) (hs c)
      · cases hc
    · obtain hc | ⟨hc, hp⟩ := hc
      · cases hc
      · obtain rfl : u = c := by simpa using hc
        rw [Function.update_of_ne hut] at hp
        rw [hp] at hu
        exact absurd (by simpa [Pc.sem, eq_comm] using hu) (hs u)
  passed u c hu := by
    have hut : u ≠ t := by
      rintro rfl
      exact hxs (suspended_iff.2 ⟨c, by simpa using hu⟩)
    rw [Function.update_of_ne hut] at hu
    obtain ⟨hf, -⟩ | ⟨hc, hr⟩ | hf | hu' := h.passed u c hu
    · cases hf
    · obtain rfl : t = c := by simpa using hc
      obtain rfl := hret hr
      obtain rfl | ⟨v, -, rfl, hv⟩ := hpass
      · exact Or.inr (Or.inr (Or.inl rfl))
      · have hvs : (pc v).SuspendedInSignal := by
          cases hq : pc v <;> rw [hq] at hv <;> first | trivial | cases hv
        rw [h.one u v (suspended_iff.2 ⟨_, hu⟩) hvs]
        exact Or.inr (Or.inr (Or.inr rfl))
    · cases hf
    · exact absurd (by simpa using hu'.symm) hut
  one u v hu hv := by
    have hne : ∀ w, (Function.update pc t x w).SuspendedInSignal → (pc w).SuspendedInSignal :=
      fun w hw => by
        by_cases hwt : w = t
        · subst hwt
          rw [Function.update_self] at hw
          exact absurd hw hxs
        · rwa [Function.update_of_ne hwt] at hw
    exact h.one u v (hne u hu) (hne v hv)
  apart := h.apart
  served := h.served

/-! ## The monitor's code -/

namespace PhiCondvar

structure At (q : PhiCondvar) (a : MonSem N → Sema (Fin N)) (tok : Holder N (Fin N)) : Prop where
  token : q.mon.Token a tok
  counted : q.mon.Counted
  rules : CondRules q.mon.pc tok q.stateCondvar q.place

def Inv (q : PhiCondvar) : Prop := ∃ a tok, At q a tok

variable {q : PhiCondvar} {a a' : MonSem N → Sema (Fin N)} {tok' : Holder N (Fin N)}
  {m r : Monitor N (Fin N)} {op : MonOp N (Fin N)} {z : Pc N}

theorem At.alone (h : At q a (.thread t)) : ∀ j ≠ t, ¬ (q.mon.pc j).Active := fun j hj ha =>
  hj (by simpa using (h.token.active_holds ha).symm)

/-- An operation of the monitor that keeps the rules. -/
theorem At.call (h : At q a tok) (hl : q.mon.Legal op) (hm : q.mon.step op = some m)
    (ht : m.Token a' tok') (hr : CondRules m.pc tok' q.stateCondvar (Function.update q.place t y)) :
    ∃ q', q.call t op y = some q' ∧ q'.Inv := by
  obtain ⟨m', hm', -, hc⟩ := Monitor.Inv.step ⟨⟨a, tok, h.token⟩, h.counted⟩ hl
  obtain rfl : m = m' := by rw [hm] at hm'; exact Option.some.inj hm'
  exact ⟨{ q with mon := m }.goto t y, by simp [PhiCondvar.call, hm], a', tok', ht, hc, hr⟩

/-- An operation that goes on in the monitor. -/
theorem At.runs (h : At q a tok) (ha : (q.mon.pc t).Active) (hl : q.mon.Legal op)
    (hm : q.mon.step op = some (r.goto t x)) (hk : r.kern = q.mon.kern) (hp : r.pc = q.mon.pc)
    (hx : x.Active) (hxs : x.sem = none) (hseat : Seat t (q.stateCondvar t) x y)
    (haims : Aims q.stateCondvar t x y)
    (hret : ∀ u, (q.mon.pc u).SuspendedInSignal → Returns t (q.mon.pc t) (q.place t) →
      Returns t x y)
    (hw : (q.place t).todo t ⊆ y.todo t) : ∃ q', q.call t op y = some q' ∧ q'.Inv := by
  obtain rfl := h.token.active_holds ha
  refine h.call hl hm (h.token.active ha hx hxs hk hp) ?_
  have hpc : (r.goto t x).pc = Function.update q.mon.pc t x := by rw [← hp]; rfl
  rw [hpc]
  exact h.rules.keep hx hseat haims h.alone hret hw

/-- The return of a `down`. -/
theorem At.resumes (h : At q a tok) (hs : (q.mon.pc t).sem = some s)
    (hr : (q.mon.kern.proc t).state = .runnable) (hl : q.mon.Legal op)
    (hm : q.mon.step op = q.mon.downResume s t x) (hx : x.Active) (hxs : x.sem = none)
    (hseat : tok = .thread t → Seat t (q.stateCondvar t) x (q.place t))
    (haims : Aims q.stateCondvar t x (q.place t))
    (hret : Returns t (q.mon.pc t) (q.place t) → Returns t x (q.place t)) :
    ∃ q', q.call t op (q.place t) = some q' ∧ q'.Inv := by
  obtain ⟨m', hm', rfl, ht', -, -, hp⟩ := h.token.resume hs hr hx hxs
  refine h.call hl (hm.trans hm') ht' ?_
  rw [hp]
  exact h.rules.keep hx (hseat rfl) haims h.alone (fun _ _ => hret) subset_rfl

/-- A `down`. -/
theorem At.downs (h : At q a tok) (hna : ¬ (q.mon.pc t).Active) (hs : (q.mon.pc t).sem = none)
    (hl : q.mon.Legal op) (hm : q.mon.step op = q.mon.down s t x z)
    (hx : x.Active) (hxs : x.sem = none) (hsleep : z.sem = some s)
    (hseat : tok = .free s → Seat t (q.stateCondvar t) x y)
    (hseat' : Seat t (q.stateCondvar t) z y)
    (haims : Aims q.stateCondvar t x y) (hmove : y.todo t = (q.place t).todo t)
    (hcv : ∀ c, s = .cv c → c = t ∧ Returns t x y)
    (hnext : s = .next → (q.mon.pc t).SuspendedInSignal)
    (hsig : ∀ c, z = .sigDown c ∨ z = .sigAsleep c → q.mon.pc t = .sigDown c)
    (hwait : ∀ c, (q.mon.pc t).SuspendedInWait c → z.SuspendedInWait c) :
    ∃ q', q.call t op y = some q' ∧ q'.Inv := by
  have hown : tok ≠ .thread t := fun he => by
    obtain ha | ⟨s', hs', -⟩ := (h.token.owner t).2 he
    · exact hna ha
    · rw [hs] at hs'; cases hs'
  obtain ⟨m', a', tok', hm', ht', -, -, hp⟩ := h.token.down x z hna hs hx hxs hsleep
  refine h.call hl (hm.trans hm') ht' ?_
  obtain ⟨rfl, rfl, hp⟩ | ⟨rfl, hp⟩ := hp
  · rw [hp]; exact h.rules.take hx (hseat rfl) haims hmove hcv hnext
  · rw [hp]; exact h.rules.block hown (Pc.not_active_of_sem hsleep) hseat' hmove hsig hwait

/-- An `up` that leaves the monitor. -/
theorem At.leaves {b : Bool} (h : At q a tok) (ha : (q.mon.pc t).Active)
    (hl : q.mon.Legal op) (hm : q.mon.step op = q.mon.up (Monitor.passOn b) t x)
    (hsusp : ¬ (q.mon.pc t).SuspendedInSignal) (hx : ¬ x.Active) (hxs : x.sem = none)
    (hx' : ¬ x.SuspendedInSignal) (hseat : Seat t (q.stateCondvar t) x (q.place t))
    (hret : Returns t (q.mon.pc t) (q.place t) → b = true) :
    ∃ q', q.call t op (q.place t) = some q' ∧ q'.Inv := by
  obtain rfl := h.token.active_holds ha
  obtain ⟨m', a', tok', hm', ht', -, -, hp, htok⟩ := h.token.up (Monitor.passOn b) x ha hx hxs
  refine h.call hl (hm.trans hm') ht' ?_
  rw [hp, Function.update_eq_self]
  refine h.rules.leave hsusp hx hx' hseat (fun c => ?_) htok fun hr => by rw [hret hr]; rfl
  cases b <;> simp [Monitor.passOn]

/-- A statement of the philosopher's own code. -/
theorem At.stmts (h : At q a (.thread t)) (hp : q.mon.pc t = .body)
    (hr : CondRules (Function.update q.mon.pc t .body) (.thread t) f
      (Function.update q.place t y)) :
    Inv ({ q with stateCondvar := f }.goto t y) := by
  rw [← hp, Function.update_eq_self] at hr
  exact ⟨a, .thread t, h.token, h.counted, hr⟩

/-! ## A philosopher's own code -/

theorem At.takeSet (h : At q a tok) (hb : q.mon.pc t = .body) (hpl : q.place t = .takeSet) :
    ∃ q', q.stmt t = some q' ∧ q'.Inv := by
  have hseat := h.rules.seat t
  obtain rfl : tok = .thread t := h.token.active_holds (by rw [hb]; trivial)
  rw [hpl] at hseat
  simp only [PhiCondvar.stmt, hpl]
  exact ⟨_, rfl, h.stmts hb (h.rules.active trivial ⟨by simp, rfl⟩ (Aims.of_place (by simp))
    (fun j hj _ hs => by rwa [Function.update_of_ne hj]) h.alone (by simp [Returns, hpl])
    (h.rules.apart.stop (by simp)) (h.rules.served.hungry (by simp [hseat.1])
      (by simp [hpl, CondPlace.todo, Call.todo])))⟩

theorem At.putSet (h : At q a tok) (hb : q.mon.pc t = .body) (hpl : q.place t = .putSet) :
    ∃ q', q.stmt t = some q' ∧ q'.Inv := by
  obtain rfl : tok = .thread t := h.token.active_holds (by rw [hb]; trivial)
  simp only [PhiCondvar.stmt, hpl]
  exact ⟨_, rfl, h.stmts hb (h.rules.active trivial ⟨by simp, rfl⟩ (Aims.of_place (by simp))
    (fun j hj _ hs => by rwa [Function.update_of_ne hj]) h.alone (by simp [Returns, hpl])
    (h.rules.apart.stop (by simp)) (h.rules.served.think
      (by simpa [hpl, CondPlace.todo] using Call.neighbours_todo)))⟩

theorem At.test {c : Call} (h : At q a tok) (hb : q.mon.pc t = .body) (hpl : q.place t = .test c) :
    ∃ q', q.stmt t = some q' ∧ q'.Inv := by
  have hseat := h.rules.seat t
  obtain rfl : tok = .thread t := h.token.active_holds (by rw [hb]; trivial)
  rw [hpl] at hseat
  have hmood : q.stateCondvar t = if c = .self then .hungry else .thinking := by
    cases c <;> exact hseat.1
  simp only [PhiCondvar.stmt, hpl]
  refine ⟨_, rfl, h.stmts hb ?_⟩
  by_cases ht : phiTest q.stateCondvar (c.who t) = true
  · rw [if_pos ht]
    have ht' := phiTest_iff.1 ht
    exact h.rules.keep trivial ⟨hmood, rfl⟩ ⟨fun _ d => ⟨by rintro ⟨⟩; exact ht', by simp⟩, by simp⟩
      h.alone (by simp [Returns, hpl]) (by simp [hpl, CondPlace.todo])
  · rw [if_neg ht]
    have ht' := mt phiTest_iff.2 ht
    refine h.rules.active trivial ?_ (Aims.of_place (by cases c <;> simp [Call.condNext]))
      (fun _ _ _ hs => hs) h.alone (by simp [Returns, hpl]) h.rules.apart
      (h.rules.served.pass ht' ?_)
    · cases c <;> simp [Seat, Call.condNext, hmood]
    · rw [todo_next, hpl]; exact Call.todo_diff c

theorem At.eat {c : Call} (h : At q a tok) (hb : q.mon.pc t = .body) (hpl : q.place t = .eat c) :
    ∃ q', q.stmt t = some q' ∧ q'.Inv := by
  have hseat := h.rules.seat t
  obtain rfl : tok = .thread t := h.token.active_holds (by rw [hb]; trivial)
  obtain ⟨hhungry, hfree⟩ := ((h.rules.aims t).1 hb c).1 hpl
  rw [hpl] at hseat
  simp only [PhiCondvar.stmt, hpl]
  refine ⟨_, rfl, h.stmts hb (h.rules.active trivial ⟨?_, rfl⟩
    ⟨fun _ d => ⟨by simp, by rintro ⟨⟩; simp⟩, by simp⟩ (fun j hj ha hs => ?_) h.alone
    (by simp [Returns, hpl]) (h.rules.apart.eat hfree) (h.rules.served.eat ?_))⟩
  · by_cases hc : c = .self
    · subst hc; simp [Call.who]
    · rw [Function.update_of_ne (Call.who_ne hc).symm, hseat.1, if_neg hc, if_neg hc]
  · by_cases hw : j = c.who t
    · subst hw
      rw [hhungry] at hs
      rw [Function.update_self]
      exact hs.fed ha
    · rwa [Function.update_of_ne hw]
  · rw [hpl]; exact Call.todo_diff c

/-- Nobody waits for the condition of a philosopher that is in its own code. -/
theorem At.count_self (h : At q a tok) (hb : q.mon.pc t = .body) : ¬ 0 < q.mon.count t := by
  rw [h.counted.cond]
  intro hpos
  obtain ⟨u, hu⟩ := threads_pos (by exact_mod_cast hpos)
  obtain ⟨rfl, -⟩ := (h.rules.seat u).inWait hu
  rw [hb] at hu
  exact hu

theorem At.signal {c : Call} (h : At q a tok) (hb : q.mon.pc t = .body)
    (hpl : q.place t = .signal c) : ∃ q', q.stmt t = some q' ∧ q'.Inv := by
  have hseat := h.rules.seat t
  have heat := ((h.rules.aims t).1 hb c).2 hpl
  rw [hpl] at hseat
  simp only [PhiCondvar.stmt, hpl]
  refine h.runs (r := q.mon) (by rw [hb]; trivial) hb rfl rfl rfl ?_ ?_ ?_ ?_
    (by simp [Returns, hpl]) (by rw [todo_next, hpl]; exact subset_rfl)
  · split_ifs <;> trivial
  · split_ifs <;> rfl
  · cases c with
    | self =>
      rw [if_neg (show ¬ 0 < q.mon.count (Call.self.who t) from h.count_self hb)]
      exact ⟨by rw [hseat.1]; simp, rfl⟩
    | left | right =>
      refine ⟨hseat.1, ?_⟩
      split_ifs
      · exact Or.inr (Or.inl rfl)
      · exact Or.inl rfl
  · split_ifs
    · refine ⟨by simp, fun d hd => ?_⟩
      obtain rfl : c.who t = d := by simpa using hd
      exact heat
    · exact Aims.of_place (by cases c <;> simp [Call.condNext])

theorem At.check (h : At q a tok) (hb : q.mon.pc t = .body) (hpl : q.place t = .check) :
    ∃ q', q.stmt t = some q' ∧ q'.Inv := by
  have hseat := h.rules.seat t
  obtain rfl : tok = .thread t := h.token.active_holds (by rw [hb]; trivial)
  rw [hpl] at hseat
  simp only [PhiCondvar.stmt, hpl]
  refine ⟨_, rfl, h.stmts hb ?_⟩
  split_ifs with hh
  · exact h.rules.keep trivial ⟨hseat.1, rfl⟩ (Aims.of_place (by simp)) h.alone
      (by simp [Returns, hpl]) (by simp [hpl, CondPlace.todo])
  · have heat : q.stateCondvar t = .eating := by
      cases hm : q.stateCondvar t with
      | thinking => exact absurd hm hseat.1
      | hungry => exact absurd hm hh
      | eating => rfl
    exact h.rules.keep trivial (Or.inl ⟨heat, Or.inl rfl⟩) (Aims.of_place (by simp)) h.alone
      (by simp [Returns, hpl]) (by simp [hpl, CondPlace.todo])

theorem At.wait (h : At q a tok) (hb : q.mon.pc t = .body) (hpl : q.place t = .wait) :
    ∃ q', q.stmt t = some q' ∧ q'.Inv := by
  have hseat := h.rules.seat t
  rw [hpl] at hseat
  simp only [PhiCondvar.stmt, hpl]
  exact h.runs (r := { q.mon with count := Function.update q.mon.count t (q.mon.count t + 1) })
    (by rw [hb]; trivial) hb rfl rfl rfl trivial rfl (Or.inr ⟨hseat.1, Or.inl rfl⟩)
    ⟨by simp, by simp⟩ (by simp [Returns, hpl]) (by simp [hpl, CondPlace.todo])

/-- The exit protocol begins. -/
theorem At.exits (h : At q a tok) (hb : q.mon.pc t = .body)
    (hpl : q.place t = .takeLeave ∧ y = .eating ∨ q.place t = .putLeave ∧ y = .thinking) :
    ∃ q', q.call t (.leave t) y = some q' ∧ q'.Inv := by
  have hseat := h.rules.seat t
  refine h.runs (r := q.mon) (by rw [hb]; trivial) hb rfl rfl rfl trivial rfl ?_
    ⟨by simp, by simp⟩ ?_ ?_
  · obtain ⟨hp, rfl⟩ | ⟨hp, rfl⟩ := hpl
    · rw [hp, hb] at hseat
      simp only [Seat, reduceCtorEq, exists_false, or_false, and_true, and_false] at hseat
      exact ⟨hseat, Or.inr ⟨_, rfl⟩⟩
    · rw [hp] at hseat
      exact ⟨hseat.1, Or.inr ⟨_, rfl⟩⟩
  · intro u hu hr
    obtain ⟨hp, rfl⟩ | ⟨hp, rfl⟩ := hpl
    · have hnext : decide (0 < q.mon.nextCount) = true := by
        have hin : (q.mon.pc u).InSignal := by
          obtain ⟨c, hc | hc⟩ := suspended_iff.1 hu <;> rw [hc] <;> trivial
        have hpos : 0 < threads q.mon.pc Pc.InSignal :=
          Finset.card_pos.2 ⟨u, Finset.mem_filter.2 ⟨Finset.mem_univ u, hin⟩⟩
        rw [decide_eq_true_iff, h.counted.next]
        exact_mod_cast hpos
      rw [hnext]
      exact Or.inr ⟨rfl, rfl⟩
    · rw [hp] at hr
      obtain ⟨hr, -⟩ | ⟨hr, -⟩ := hr <;> cases hr
  · obtain ⟨hp, rfl⟩ | ⟨hp, rfl⟩ := hpl <;> simp [hp, CondPlace.todo]

/-- A procedure of the monitor is called. -/
theorem At.enters (h : At q a tok) (ho : q.mon.pc t = .out)
    (hpl : q.place t = .thinking ∧ y = .takeSet ∨ q.place t = .eating ∧ y = .putSet) :
    ∃ q', q.call t (.enter t) y = some q' ∧ q'.Inv := by
  have hseat := h.rules.seat t
  have hmood : ∀ {x : Pc N}, x = .entering ∨ x = .body → Seat t (q.stateCondvar t) x y := by
    intro x hx
    obtain ⟨hp, rfl⟩ | ⟨hp, rfl⟩ := hpl
    all_goals
      rw [hp] at hseat
      exact ⟨hseat.1, hx⟩
  refine h.downs (s := .mutex) (x := .body) (z := .entering) (by rw [ho]; exact id)
    (by rw [ho]; rfl) ho rfl trivial rfl rfl (fun _ => hmood (Or.inr rfl)) (hmood (Or.inl rfl))
    (Aims.of_place ?_) ?_ (by simp) (by simp) (by simp) ?_
  · obtain ⟨-, rfl⟩ | ⟨-, rfl⟩ := hpl <;> simp
  · obtain ⟨hp, rfl⟩ | ⟨hp, rfl⟩ := hpl <;> simp [hp, CondPlace.todo]
  · intro c hc; rw [ho] at hc; exact hc.elim

theorem At.stmt (h : At q a tok) (hpc : q.mon.pc t = .out ∨ q.mon.pc t = .body) :
    ∃ q', q.stmt t = some q' ∧ q'.Inv := by
  have hseat := h.rules.seat t
  have hout : q.mon.pc t ≠ .entering ∧ ∀ b, q.mon.pc t ≠ .exitUp b := by
    rcases hpc with hpc | hpc <;> simp [hpc]
  have hin : ∀ {d}, q.mon.pc t = .body ∨ Signals d (q.mon.pc t) → q.mon.pc t = .body := by
    rintro d (hb | hs | hs | hs | hs | hs)
    · exact hb
    all_goals rcases hpc with hpc | hpc <;> rw [hpc] at hs <;> cases hs
  cases hpl : q.place t with
  | thinking =>
    rw [hpl] at hseat
    simp only [PhiCondvar.stmt, hpl]
    exact h.enters (by simpa [hout] using hseat.2) (Or.inl ⟨hpl, rfl⟩)
  | eating =>
    rw [hpl] at hseat
    simp only [PhiCondvar.stmt, hpl]
    exact h.enters (by simpa [hout] using hseat.2) (Or.inr ⟨hpl, rfl⟩)
  | takeSet =>
    rw [hpl] at hseat
    exact h.takeSet (by simpa [hout] using hseat.2) hpl
  | putSet =>
    rw [hpl] at hseat
    exact h.putSet (by simpa [hout] using hseat.2) hpl
  | test c =>
    rw [hpl] at hseat
    refine h.test ?_ hpl
    cases c with
    | right => exact hin hseat.2
    | self | left => exact hseat.2
  | eat c => rw [hpl] at hseat; exact h.eat hseat.2 hpl
  | signal c => rw [hpl] at hseat; exact h.signal hseat.2 hpl
  | check => rw [hpl] at hseat; exact h.check hseat.2 hpl
  | wait => rw [hpl] at hseat; exact h.wait hseat.2 hpl
  | takeLeave =>
    rw [hpl] at hseat
    have hb : q.mon.pc t = .body := by
      obtain ⟨-, hb | hb⟩ | ⟨-, hb | ⟨b, hb⟩ | hb | hb⟩ := hseat
      · exact hb
      all_goals rcases hpc with hpc | hpc <;> rw [hpc] at hb <;> cases hb
    simp only [PhiCondvar.stmt, hpl]
    exact h.exits hb (Or.inl ⟨hpl, rfl⟩)
  | putLeave =>
    rw [hpl] at hseat
    simp only [PhiCondvar.stmt, hpl]
    exact h.exits (hin hseat.2) (Or.inr ⟨hpl, rfl⟩)

/-! ## In the monitor's code -/

/-- The `up` of `cond_signal` wakes the philosopher that is to eat. -/
theorem At.signals (h : At q a tok) (hpc : q.mon.pc t = .sigUp c) :
    ∃ q', q.call t (.run t) (q.place t) = some q' ∧ q'.Inv := by
  have hact : (q.mon.pc t).Active := by rw [hpc]; trivial
  obtain rfl := h.token.active_holds hact
  obtain ⟨m', a', tok', hm', ht', -, -, hp, htok⟩ := h.token.up (.cv c) (.sigDown c) hact id rfl
  refine h.call (t := t) (by simp [Monitor.Legal, hpc, Pc.sem])
    ((by simp only [Monitor.step, hpc] : q.mon.step (.run t) = _).trans hm') ht' ?_
  rw [hp, Function.update_eq_self]
  refine h.rules.signal hpc ?_ htok
  -- somebody waits for the condition, and it is its philosopher
  have hpos := h.counted.seen t c (Or.inr hpc)
  rw [h.counted.cond] at hpos
  obtain ⟨u, hu⟩ := threads_pos (by exact_mod_cast hpos)
  obtain ⟨rfl, -⟩ := (h.rules.seat u).inWait hu
  have hut : c ≠ t := by rintro rfl; rw [hpc] at hu; exact hu
  have hna := h.alone c hut
  cases hq : q.mon.pc c <;> rw [hq] at hu hna <;>
    first | exact hu | exact hu.elim | exact absurd trivial hna

theorem At.run (h : At q a tok) (ho : q.mon.pc t ≠ .out) (hb : q.mon.pc t ≠ .body)
    (hr : (q.mon.pc t).sem ≠ none → (q.mon.kern.proc t).state = .runnable) :
    ∃ q', q.call t (.run t) (q.place t) = some q' ∧ q'.Inv := by
  have hseat := h.rules.seat t
  have haims := h.rules.aims t
  have hl : q.mon.Legal (.run t) := ⟨ho, hb, hr⟩
  have hplace := Aims.of_place (f := q.stateCondvar) (i := t) (hseat.not_eat hb)
  cases hpc : q.mon.pc t with
  | out => exact absurd hpc ho
  | body => exact absurd hpc hb
  | entering =>
    refine h.resumes (s := .mutex) (x := .body) (by rw [hpc]; rfl) (hr (by rw [hpc]; simp [Pc.sem]))
      hl (by simp only [Monitor.step, hpc]) trivial rfl (fun _ => ?_) hplace ?_
    · rw [hpc] at hseat; exact hseat.entered
    · rw [hpc]; rintro (⟨-, hr⟩ | ⟨-, hr⟩) <;> simp at hr
  | sigInc d =>
    have hs : Signals d (q.mon.pc t) := Or.inl hpc
    exact h.runs (r := { q.mon with nextCount := q.mon.nextCount + 1 }) (x := .sigUp d)
      (by rw [hpc]; trivial) hl (by simp only [Monitor.step, hpc]) rfl rfl trivial rfl
      (hseat.signals hs (Or.inr (Or.inr (Or.inl rfl))))
      ⟨by simp, fun c hc => haims.2 c (Or.inl (by simpa [hpc] using hc))⟩
      (fun _ _ hr => absurd hr (not_returns hs)) subset_rfl
  | sigUp d => exact h.signals hpc
  | sigDown d =>
    have hs : Signals d (q.mon.pc t) := Or.inr (Or.inr (Or.inl hpc))
    exact h.downs (s := .next) (x := .sigDec d) (z := .sigAsleep d) (by rw [hpc]; exact id)
      (by rw [hpc]; rfl) hl (by simp only [Monitor.step, hpc]) trivial rfl rfl
      (fun _ => hseat.signals hs (Or.inr (Or.inr (Or.inr (Or.inr (Or.inr rfl))))))
      (hseat.signals hs (Or.inr (Or.inr (Or.inr (Or.inr (Or.inl rfl)))))) ⟨by simp, by simp⟩ rfl
      (by simp) (fun _ => by rw [hpc]; trivial) (by simp [hpc])
      (fun c hc => by rw [hpc] at hc; exact hc.elim)
  | sigAsleep d =>
    have hs : Signals d (q.mon.pc t) := Or.inr (Or.inr (Or.inr (Or.inl hpc)))
    exact h.resumes (s := .next) (x := .sigDec d) (by rw [hpc]; rfl)
      (hr (by rw [hpc]; simp [Pc.sem])) hl (by simp only [Monitor.step, hpc]) trivial rfl
      (fun _ => hseat.signals hs (Or.inr (Or.inr (Or.inr (Or.inr (Or.inr rfl))))))
      ⟨by simp, by simp⟩ fun hr => absurd hr (not_returns hs)
  | sigDec d =>
    have hs : Signals d (q.mon.pc t) := Or.inr (Or.inr (Or.inr (Or.inr hpc)))
    exact h.runs (r := { q.mon with nextCount := q.mon.nextCount - 1 }) (x := .body)
      (by rw [hpc]; trivial) hl (by simp only [Monitor.step, hpc]) rfl rfl trivial rfl
      (hseat.signals hs (Or.inl rfl)) hplace (fun _ _ hr => absurd hr (not_returns hs)) subset_rfl
  | waitTest d =>
    obtain ⟨rfl, hpl⟩ := hseat.inWait (c := d) (by rw [hpc]; rfl)
    have hne := hseat.ne_thinking hpl
    exact h.runs (r := q.mon) (x := .waitUp d (0 < q.mon.nextCount)) (by rw [hpc]; trivial) hl
      (by simp only [Monitor.step, hpc]) rfl rfl trivial rfl
      (by rw [hpl]; exact Or.inr ⟨hne, Or.inr (Or.inl ⟨_, rfl⟩)⟩) ⟨by simp, by simp⟩
      (by simp [hpc, Returns]) subset_rfl
  | waitUp d b =>
    obtain ⟨rfl, hpl⟩ := hseat.inWait (c := d) (by rw [hpc]; rfl)
    have hne := hseat.ne_thinking hpl
    exact h.leaves (b := b) (x := .waitDown d) (by rw [hpc]; trivial) hl
      (by simp only [Monitor.step, hpc]) (by rw [hpc]; exact id) id rfl id
      (by rw [hpl]; exact Or.inr ⟨hne, Or.inr (Or.inr (Or.inl rfl))⟩) (by simp [hpc, hpl, Returns])
  | waitDown d =>
    obtain ⟨rfl, hpl⟩ := hseat.inWait (c := d) (by rw [hpc]; rfl)
    have hne := hseat.ne_thinking hpl
    refine h.downs (s := .cv d) (x := .waitDec d) (z := .waitAsleep d)
      (by rw [hpc]; exact id) (by rw [hpc]; rfl) hl (by simp only [Monitor.step, hpc]) trivial rfl
      rfl (fun he => ?_) ?_ ⟨by simp, by simp⟩ rfl (fun c hc => ⟨?_, ?_⟩) (by simp) (by simp)
      fun c hc => by rw [hpc] at hc; exact hc
    · rw [hpl]; exact Or.inl ⟨h.rules.handed d (Or.inl he), Or.inr rfl⟩
    · rw [hpl]; exact Or.inr ⟨hne, Or.inr (Or.inr (Or.inr rfl))⟩
    · simpa [eq_comm] using hc
    · exact Or.inl ⟨hpl, Or.inr (Or.inl rfl)⟩
  | waitAsleep d =>
    obtain ⟨rfl, hpl⟩ := hseat.inWait (c := d) (by rw [hpc]; rfl)
    refine h.resumes (s := .cv d) (x := .waitDec d) (by rw [hpc]; rfl)
      (hr (by rw [hpc]; simp [Pc.sem])) hl (by simp only [Monitor.step, hpc]) trivial rfl
      (fun he => ?_) ⟨by simp, by simp⟩ fun _ => Or.inl ⟨hpl, Or.inr (Or.inl rfl)⟩
    rw [hpl]; exact Or.inl ⟨h.rules.handed d (Or.inr ⟨he, hpc⟩), Or.inr rfl⟩
  | waitDec d =>
    obtain ⟨rfl, hpl⟩ := hseat.inWait (c := d) (by rw [hpc]; rfl)
    have heat : q.stateCondvar d = .eating := by
      rw [hpl, hpc] at hseat
      simpa [Seat] using hseat
    refine h.runs (x := .body)
      (r := { q.mon with count := Function.update q.mon.count d (q.mon.count d - 1) })
      (by rw [hpc]; trivial) hl (by simp only [Monitor.step, hpc]) rfl rfl trivial rfl ?_ hplace
      (fun _ _ _ => Or.inl ⟨hpl, Or.inr (Or.inr rfl)⟩) subset_rfl
    rw [hpl]; exact Or.inl ⟨heat, Or.inl rfl⟩
  | exitUp b =>
    refine h.leaves (b := b) (x := .out) (by rw [hpc]; trivial) hl
      (by simp only [Monitor.step, hpc]) (by rw [hpc]; exact id) id rfl id ?_ ?_
    · rw [hpc] at hseat; exact hseat.left
    · rw [hpc]
      rintro (⟨-, hr⟩ | ⟨-, hr⟩)
      · simp at hr
      · exact Pc.exitUp.inj hr

/-- **One step.** -/
theorem Inv.step (h : q.Inv) (hl : machine.Legal q t) : ∃ q', q.step t = some q' ∧ q'.Inv := by
  obtain ⟨a, tok, h⟩ := h
  by_cases hpc : q.mon.pc t = .out ∨ q.mon.pc t = .body
  · have hstep : q.step t = q.stmt t := by
      rcases hpc with hpc | hpc <;> simp only [PhiCondvar.step, hpc]
    rw [hstep]
    exact h.stmt hpc
  · push Not at hpc
    have hstep : q.step t = q.call t (.run t) (q.place t) := by
      unfold PhiCondvar.step
      split
      · rename_i ho; exact absurd ho hpc.1
      · rename_i hb; exact absurd hb hpc.2
      · rfl
    rw [hstep]
    exact h.run hpc.1 hpc.2 hl

theorem reach_inv (h : machine.Reach q) : q.Inv := by
  refine h.invariant (fun q hq => ?_) fun _ _ hi hl => hi.step hl
  obtain ⟨k, m, hk, hm, rfl⟩ := hq
  obtain ⟨⟨a, ht⟩, hc, hout⟩ := Monitor.monitorInit_token hk hm
  have hnot : ∀ t, ¬ (m.pc t).SuspendedInSignal := fun t ht => by rw [hout] at ht; exact ht
  refine ⟨a, .free .mutex, ht, hc, fun i => ⟨rfl, Or.inl (hout i)⟩, fun i => ?_, fun c hc => ?_,
    fun t c hu => absurd (suspended_iff.2 ⟨c, hu⟩) (hnot t), fun t _ hu => absurd hu (hnot t),
    fun i hi => ?_, fun i hi => ?_⟩
  · exact Aims.of_not_active (by rw [hout]; exact id)
  · obtain hc | ⟨hc, -⟩ := hc <;> cases hc
  · cases hi
  · cases hi

/-! ## The claim on the table -/

/-- Active in the monitor: runs in it, or has been passed it, being woken or with the permit in the
    semaphore it is to wait for. -/
def Active (q : PhiCondvar) (i : Fin N) : Prop :=
  (q.mon.pc i).Active ∨
    ((q.mon.pc i).sem ≠ none ∧ (q.mon.kern.proc i).state = .runnable) ∨
    (∃ c, (q.mon.pc i).SuspendedInWait c ∧ 0 < q.mon.kern.value (.cv c)) ∨
    ((q.mon.pc i).SuspendedInSignal ∧ 0 < q.mon.kern.value .next)

theorem At.active_of_thread (h : At q a (.thread t)) : q.Active t := by
  obtain ha | ⟨s, hs, hq⟩ := (h.token.owner t).2 rfl
  · exact Or.inl ha
  · have hw := (h.token.ok.woken t s (by rw [h.token.sleeps, hs])).2 hq
    exact Or.inr (Or.inl ⟨by rw [hs]; simp, hw.1⟩)

theorem At.value_of_free (h : At q a (.free s)) : 0 < q.mon.kern.value s := by
  rw [h.token.ok.value s trivial, h.token.value, if_pos rfl]
  decide

/-- Whoever is suspended in `cond_signal` waits for an active philosopher. -/
theorem At.active_of_suspended (h : At q a tok) (ht : (q.mon.pc t).SuspendedInSignal) :
    ∃ u, q.Active u := by
  obtain ⟨c, hc⟩ := suspended_iff.1 ht
  obtain ⟨rfl, hw⟩ | ⟨rfl, -⟩ | rfl | rfl := h.rules.passed t c hc
  · exact ⟨c, Or.inr (Or.inr (Or.inl ⟨c, hw, h.value_of_free⟩))⟩
  · exact ⟨c, h.active_of_thread⟩
  · exact ⟨t, Or.inr (Or.inr (Or.inr ⟨ht, h.value_of_free⟩))⟩
  · exact ⟨t, h.active_of_thread⟩

/-- **The philosophers with a monitor dine.** -/
theorem Inv.dined (h : q.Inv) : Dined q.stateCondvar (q.place · = .eating) q.Active := by
  obtain ⟨a, tok, h⟩ := h
  refine Philosophers.dined h.rules.apart (fun i hi => ?_) h.rules.served fun i j hj => ?_
  · have hseat := h.rules.seat i
    rw [hi] at hseat
    exact hseat.1
  · have hseat := h.rules.seat j
    have hbody : q.mon.pc j = .body → ∃ t, q.Active t := fun hb => ⟨j, Or.inl (by rw [hb]; trivial)⟩
    cases hp : q.place j <;> rw [hp] at hj hseat
    case test c =>
      cases c with
      | self | left => exact hbody hseat.2
      | right =>
        obtain hb | hs | hs | hs | hs | hs := hseat.2
        · exact hbody hb
        · exact ⟨j, Or.inl (by rw [hs]; trivial)⟩
        · exact ⟨j, Or.inl (by rw [hs]; trivial)⟩
        · exact h.active_of_suspended (by rw [hs]; trivial)
        · exact h.active_of_suspended (by rw [hs]; trivial)
        · exact ⟨j, Or.inl (by rw [hs]; trivial)⟩
    case eat c => exact hbody hseat.2
    case signal c => exact hbody hseat.2
    all_goals exact absurd hj (Set.notMem_empty i)

end PhiCondvar

/-! ## Both implementations -/

/-- **Dining philosophers.**  In every state either implementation reaches the philosophers dine,
    and no statement fails. -/
theorem philosophers_dine :
    (∀ q, PhiSema.machine.Reach q →
      Dined q.stateSema (q.place · = .eating) (fun i => (q.place i).phase = .inside) ∧
      ∀ i, PhiSema.machine.Legal q i → ∃ q', q.step i = some q') ∧
    ∀ q, PhiCondvar.machine.Reach q →
      Dined q.stateCondvar (q.place · = .eating) q.Active ∧
      ∀ i, PhiCondvar.machine.Legal q i → ∃ q', q.step i = some q' := by
  refine ⟨fun q h => ?_, fun q h => ?_⟩
  · have hi := PhiSema.reach_inv h
    refine ⟨hi.dined, fun i hl => ?_⟩
    obtain ⟨q', hq', -⟩ := hi.step hl
    exact ⟨q', hq'⟩
  · have hi := PhiCondvar.reach_inv h
    refine ⟨hi.dined, fun i hl => ?_⟩
    obtain ⟨q', hq', -⟩ := hi.step hl
    exact ⟨q', hq'⟩

instance (q : PhiSema) (i : Fin N) : Decidable (PhiSema.machine.Legal q i) :=
  inferInstanceAs (Decidable (_ → _))

instance (q : PhiCondvar) (i : Fin N) : Decidable (PhiCondvar.machine.Legal q i) :=
  inferInstanceAs (Decidable (_ → _))

/-- Before `check_sync`. -/
def idleKern {S : Type} (s : S) : Kern S (Fin N) :=
  ⟨fun _ => 0, ⟨id, id⟩, fun _ => ⟨none, 0, s⟩, fun _ => ⟨.runnable, 0⟩, fun _ => none⟩

/-- Philosopher 0 takes its forks, 1 waits, 0 puts them back and 1 goes on. -/
theorem philosophers_dine_neighbour :
    (∃ q, PhiSema.machine.Reach q ∧ q.place 1 = .eating ∧ q.stateSema 1 = .eating ∧
      q.stateSema 0 ≠ .eating) ∧
    ∃ q, PhiCondvar.machine.Reach q ∧ q.place 1 = .eating ∧ q.stateCondvar 1 = .eating ∧
      q.stateCondvar 0 ≠ .eating := by
  constructor
  · have h : ∃ q, PhiSema.machine.run (PhiSema.init (idleKern .mutex))
        [0, 0, 0, 0, 0, 0, 0, 1, 1, 1, 1, 1, 0, 0, 0, 0, 0, 0, 0, 1] = some q ∧
          q.place 1 = .eating :=
      ⟨_, rfl, by decide +kernel⟩
    obtain ⟨q, hq, hp⟩ := h
    have hr : PhiSema.machine.Reach q :=
      (Machine.Reach.init (M := PhiSema.machine) ⟨_, fun _ => rfl, rfl⟩).run hq
    obtain ⟨hd, -⟩ := philosophers_dine.1 q hr
    have he := hd.taken 1 hp
    exact ⟨q, hr, hp, he, (hd.apart 1 he).1⟩
  · have h : ∃ m q, Monitor.monitorInit (idleKern .mutex) = some m ∧
        PhiCondvar.machine.run ⟨m, fun _ => .thinking, fun _ => .thinking⟩
          [0, 0, 0, 0, 0, 0, 0, 0, 1, 1, 1, 1, 1, 1, 1, 1, 0, 0, 0, 0, 0, 0, 0, 0, 0, 1, 1, 1] =
            some q ∧ q.place 1 = .eating :=
      ⟨_, _, rfl, rfl, by decide +kernel⟩
    obtain ⟨m, q, hm, hq, hp⟩ := h
    have hr : PhiCondvar.machine.Reach q :=
      (Machine.Reach.init (M := PhiCondvar.machine) ⟨_, m, fun _ => rfl, hm, rfl⟩).run hq
    obtain ⟨hd, -⟩ := philosophers_dine.2 q hr
    have he := hd.taken 1 hp
    exact ⟨q, hr, hp, he, (hd.apart 1 he).1⟩

end Ucore.Philosophers
