/-
  The philosophers with semaphores.

  `SemaRules b f place`: the moods `f` and the private semaphores `b` fit the places of the
  philosophers (`Seat`), and the one that is about to let somebody eat may do so (`Aims`).  A
  philosopher waits for its own semaphore with at most one permit on the way to it.

  * `SemaRules.move`, `SemaRules.inside`: steps outside and inside the critical section;
  * `PhiSema.Inv.step`: every step keeps the rules and the lock;
  * `PhiSema.Inv.dined`: the philosophers dine.
-/
import Ucore.Sync.Philosophers
import Ucore.Sync.SemInv
import Ucore.Lib.Mutex

namespace Ucore.Philosophers

open Dining HandOff

/-! ## Places -/

/-- What the one who calls `phi_test_sema` feels. -/
def Call.mood : Call → Mood
  | self => .hungry
  | _ => .thinking

namespace SemaPlace

/-- Whether the philosopher has `mutex`. -/
def phase : SemaPlace → Phase
  | thinking | own | ownAsleep | eating => .outside
  | takeAsleep | putAsleep => .waiting
  | _ => .inside

/-- The philosophers still to be looked at. -/
def todo (i : Fin N) : SemaPlace → Set (Fin N)
  | test c | eat c => c.todo i
  | upS c => c.rest i
  | _ => ∅

/-- Mood and semaphore of the philosopher. -/
def Seat (i : Fin N) (b : Sema (Fin N)) (a : Mood) : SemaPlace → Prop
  | thinking | takeAsleep | takeSet | putUp => a = .thinking ∧ b = ⟨0, []⟩
  | test c | eat c => a = c.mood ∧ b = ⟨0, []⟩
  | upS c => a = (if c = .self then .eating else .thinking) ∧ b = ⟨0, []⟩
  | takeUp | own => (b = ⟨0, []⟩ ∧ a ≠ .thinking) ∨ (b = ⟨1, []⟩ ∧ a = .eating)
  | ownAsleep => (b = ⟨0, [i]⟩ ∧ a ≠ .thinking) ∨ (b = ⟨0, []⟩ ∧ a = .eating)
  | eating | putAsleep | putSet => a = .eating ∧ b = ⟨0, []⟩

/-- Waits for its semaphore, or is about to, and nobody has returned a permit to it. -/
def Unserved (j : Fin N) (b : Sema (Fin N)) (p : SemaPlace) : Prop :=
  (p = own ∧ b = ⟨0, []⟩) ∨ (p = ownAsleep ∧ b = ⟨0, [j]⟩)

/-- The one who is about to eat may do so, and waits for it. -/
def Aims (b : Fin N → Sema (Fin N)) (f : Fin N → Mood) (place : Fin N → SemaPlace) (i : Fin N) :
    SemaPlace → Prop
  | eat c => f (c.who i) = .hungry ∧ Free table f (c.who i)
  | upS c => f (c.who i) = .eating ∧
      (c ≠ .self → Unserved (c.who i) (b (c.who i)) (place (c.who i)))
  | _ => True

variable {b b' : Fin N → Sema (Fin N)} {f : Fin N → Mood} {place : Fin N → SemaPlace}
  {i t : Fin N} {p x : SemaPlace}

theorem todo_next (c : Call) : c.semaNext.todo i = c.rest i := by cases c <;> rfl

theorem todo_update : (fun i => (Function.update place t x i).todo i) =
    Function.update (fun i => (place i).todo i) t (x.todo t) := by
  funext i
  by_cases h : i = t
  · subst h; simp
  · simp [h]

theorem phase_update : (fun i => (Function.update place t x i).phase) =
    Function.update (fun i => (place i).phase) t x.phase := by
  funext i
  by_cases h : i = t
  · subst h; simp
  · simp [h]

theorem Aims.of_outside (h : p.phase ≠ .inside) : Aims b f place i p := by
  cases p <;> trivial

/-- A hungry philosopher outside the critical section waits for its semaphore. -/
theorem Seat.fed {b : Sema (Fin N)} (h : Seat i b .hungry p) (hp : p.phase ≠ .inside) :
    Seat i b .eating p ∧ Unserved i b p := by
  cases p <;> simp_all [Seat, Unserved, phase]

/-- A philosopher that is not waited for moves, or waits in its queue now. -/
theorem Aims.frame (h : Aims b f place i p)
    (ht : Unserved t (b t) (place t) → Unserved t (b' t) x) (hb : ∀ j ≠ t, b' j = b j) :
    Aims b' f (Function.update place t x) i p := by
  cases p with
  | upS c =>
    refine ⟨h.1, fun hc => ?_⟩
    by_cases hw : c.who i = t
    · have hu := h.2 hc
      rw [hw] at hu ⊢
      simpa using ht hu
    · rw [hb _ hw, Function.update_of_ne hw]
      exact h.2 hc
  | _ => exact h

end SemaPlace

open SemaPlace

structure SemaRules (b : Fin N → Sema (Fin N)) (f : Fin N → Mood) (place : Fin N → SemaPlace) :
    Prop where
  seat : ∀ i, Seat i (b i) (f i) (place i)
  aims : ∀ i, Aims b f place i (place i)
  apart : Apart table f
  served : Served table f fun i => (place i).todo i

variable {b b' : Fin N → Sema (Fin N)} {f f' : Fin N → Mood} {place : Fin N → SemaPlace}
  {i t : Fin N} {p x : SemaPlace} {c : Call}

/-! ## Steps and the rules -/

/-- **Outside the critical section**, and on the way into it, a philosopher changes its place and
    its own semaphore. -/
theorem SemaRules.move (h : SemaRules b f place) (hx : Seat t (b' t) (f t) x)
    (hb : ∀ j ≠ t, b' j = b j) (hu : Unserved t (b t) (place t) → Unserved t (b' t) x)
    (ha : Aims b' f (Function.update place t x) t x) (hw : (place t).todo t ⊆ x.todo t) :
    SemaRules b' f (Function.update place t x) where
  seat i := by
    by_cases hi : i = t
    · subst hi; simpa using hx
    · rw [hb i hi, Function.update_of_ne hi]; exact h.seat i
  aims i := by
    by_cases hi : i = t
    · subst hi; simpa using ha
    · rw [Function.update_of_ne hi]; exact (h.aims i).frame hu hb
  apart := h.apart
  served := by rw [todo_update]; exact h.served.move hw

/-- **Inside**, nobody else is. -/
theorem SemaRules.inside (hseat : ∀ i, Seat i (b i) (f i) (Function.update place t x i))
    (halone : ∀ i ≠ t, (place i).phase ≠ .inside) (ha : Aims b f (Function.update place t x) t x)
    (happ : Apart table f)
    (hs : Served table f (Function.update (fun i => (place i).todo i) t (x.todo t))) :
    SemaRules b f (Function.update place t x) where
  seat := hseat
  aims i := by
    by_cases hi : i = t
    · subst hi; simpa using ha
    · rw [Function.update_of_ne hi]; exact Aims.of_outside (halone i hi)
  apart := happ
  served := by rwa [todo_update]

/-- The seats after the philosopher `t` has moved. -/
theorem SemaRules.seats (h : SemaRules b f place) (hx : Seat t (b' t) (f' t) x)
    (hb : ∀ j ≠ t, Seat j (b j) (f j) (place j) → Seat j (b' j) (f' j) (place j)) :
    ∀ i, Seat i (b' i) (f' i) (Function.update place t x i) := fun i => by
  by_cases hi : i = t
  · subst hi; simpa using hx
  · rw [Function.update_of_ne hi]; exact hb i hi (h.seat i)

section
variable (h : SemaRules b f place) (halone : ∀ i ≠ t, (place i).phase ≠ .inside)
include h halone

theorem SemaRules.takeSet (hp : place t = .takeSet) :
    SemaRules b (Function.update f t .hungry) (Function.update place t (.test .self)) := by
  have hseat := h.seat t
  rw [hp] at hseat
  refine SemaRules.inside (h.seats ?_ fun j hj hs => ?_) halone trivial (h.apart.stop (by simp))
    (h.served.hungry ?_ ?_)
  · simpa [Seat, Call.mood] using hseat.2
  · rwa [Function.update_of_ne hj]
  · simp [hseat.1]
  · simp [hp, SemaPlace.todo, Call.todo]

theorem SemaRules.test (hp : place t = .test c) :
    SemaRules b f (Function.update place t
      (if phiTest f (c.who t) then .eat c else c.semaNext)) := by
  have hseat := h.seat t
  rw [hp] at hseat
  have hserved := h.served
  split_ifs with ht
  · have ht' := phiTest_iff.1 ht
    refine SemaRules.inside (h.seats hseat fun _ _ hs => hs) halone ht' h.apart (hserved.move ?_)
    simp [hp, SemaPlace.todo]
  · have ht' := mt phiTest_iff.2 ht
    refine SemaRules.inside (h.seats ?_ fun _ _ hs => hs) halone ?_ h.apart (hserved.pass ht' ?_)
    · cases c with
      | self => exact Or.inl ⟨hseat.2, by rw [hseat.1]; simp [Call.mood]⟩
      | left => exact hseat
      | right => exact hseat
    · cases c <;> trivial
    · rw [todo_next, hp]; exact Call.todo_diff c

theorem SemaRules.eat (hp : place t = .eat c) :
    SemaRules b (Function.update f (c.who t) .eating) (Function.update place t (.upS c)) := by
  have hseat := h.seat t
  rw [hp] at hseat
  obtain ⟨hhungry, hfree⟩ : f (c.who t) = .hungry ∧ Free table f (c.who t) := by
    have := h.aims t
    rwa [hp] at this
  have hfed : ∀ j ≠ t, j = c.who t → Seat j (b j) .eating (place j) ∧
      Unserved j (b j) (place j) := fun j hj hw => by
    have hs := h.seat j
    subst hw
    rw [hhungry] at hs
    exact hs.fed (halone _ hj)
  refine SemaRules.inside (h.seats ?_ fun j hj hs => ?_) halone ⟨by simp, fun hc => ?_⟩
    (h.apart.eat hfree) (h.served.eat ?_)
  · by_cases hc : c = .self
    · subst hc; simpa [Seat, Call.who] using hseat.2
    · rw [Function.update_of_ne (Call.who_ne hc).symm]
      cases c <;> first | exact absurd rfl hc | exact hseat
  · by_cases hw : j = c.who t
    · subst hw; simpa using (hfed _ hj rfl).1
    · rwa [Function.update_of_ne hw]
  · rw [Function.update_of_ne (Call.who_ne hc)]
    exact (hfed _ (Call.who_ne hc) rfl).2
  · rw [hp]; exact Call.todo_diff c

theorem SemaRules.upS (hp : place t = .upS c) :
    SemaRules (Function.update b (c.who t) (b (c.who t)).up.1) f
      (Function.update place t c.semaNext) := by
  have hseat := h.seat t
  have haims := h.aims t
  rw [hp] at hseat haims
  obtain ⟨heats, hwaits⟩ := haims
  refine SemaRules.inside (h.seats ?_ fun j hj hs => ?_) halone ?_ h.apart (h.served.move ?_)
  · by_cases hc : c = .self
    · subst hc
      simp only [Call.who] at heats ⊢
      simp [Seat, Call.semaNext, hseat.2, heats, Sema.up]
    · rw [Function.update_of_ne (Call.who_ne hc).symm]
      cases c <;> first | exact absurd rfl hc | exact hseat
  · by_cases hw : j = c.who t
    · subst hw
      have hc : c ≠ .self := by rintro rfl; exact hj rfl
      rw [Function.update_self, heats]
      obtain ⟨hown, hb⟩ | ⟨hown, hb⟩ := hwaits hc
      · simp [hown, hb, Seat, Sema.up]
      · simp [hown, hb, Seat, Sema.up]
    · rwa [Function.update_of_ne hw]
  · cases c <;> trivial
  · rw [todo_next, hp]; exact subset_rfl

theorem SemaRules.putSet (hp : place t = .putSet) :
    SemaRules b (Function.update f t .thinking) (Function.update place t (.test .left)) := by
  have hseat := h.seat t
  rw [hp] at hseat
  refine SemaRules.inside (h.seats ?_ fun j hj hs => ?_) halone trivial (h.apart.stop (by simp))
    (h.served.think ?_)
  · simpa [Seat, Call.mood] using hseat.2
  · rwa [Function.update_of_ne hj]
  · simpa [hp, SemaPlace.todo] using Call.neighbours_todo

end

/-! ## The kernel -/

namespace SemaPlace

theorem sem_of_inside (h : p.phase = .inside) : p.sem i = none := by
  cases p <;> first | rfl | cases h

theorem not_unserved {b : Sema (Fin N)} (h : p ≠ .own) (h' : p ≠ .ownAsleep) :
    ¬ Unserved i b p := by
  rintro (⟨hp, -⟩ | ⟨hp, -⟩)
  exacts [h hp, h' hp]

end SemaPlace

namespace PhiSema

/-- The kernel's semaphores are in the states `a`, and `o` has `mutex`. -/
structure At (q : PhiSema) (a : PhiSem → Sema (Fin N)) (o : Option (Fin N)) : Prop where
  ok : q.kern.Ok (fun _ => True) a
  sleeps : ∀ i, q.kern.inDown i = (q.place i).sem i
  lock : Mutex (a .mutex) o fun i => (q.place i).phase
  rules : SemaRules (fun i => a (.s i)) q.stateSema q.place

def Inv (q : PhiSema) : Prop := ∃ a o, At q a o

variable {q : PhiSema} {a : PhiSem → Sema (Fin N)} {o : Option (Fin N)} {awake asleep : SemaPlace}

theorem At.alone (h : At q a o) (ht : (q.place t).phase = .inside) :
    ∀ i ≠ t, (q.place i).phase ≠ .inside := fun _ hi hin => hi (h.lock.exclusive hin ht)

theorem private_update (j : Fin N) (v : Sema (Fin N)) :
    (fun i => Function.update a (.s j) v (.s i)) = Function.update (fun i => a (.s i)) j v := by
  funext i
  by_cases hi : i = j
  · subst hi; simp
  · simp [hi]

theorem sleeps_update {k : Kern PhiSem (Fin N)} (h : At q a o)
    (hk : ∀ i ≠ t, k.inDown i = q.kern.inDown i) (ht : k.inDown t = x.sem t) (i : Fin N) :
    k.inDown i = (Function.update q.place t x i).sem i := by
  by_cases hi : i = t
  · subst hi; simpa using ht
  · rw [hk i hi, h.sleeps, Function.update_of_ne hi]

/-- **A statement** in the critical section. -/
theorem At.stmt (h : At q a o) (hp : (q.place t).phase = .inside) (hx : x.phase = .inside)
    (hr : SemaRules (fun i => a (.s i)) f (Function.update q.place t x)) :
    Inv ({ q with stateSema := f }.goto t x) := by
  refine ⟨a, o, h.ok, sleeps_update (q := q) (k := q.kern) h (fun _ _ => rfl) ?_, ?_, hr⟩
  · rw [h.sleeps, sem_of_inside hp, sem_of_inside hx]
  · have hph : Function.update (fun i => (q.place i).phase) t x.phase =
        fun i => (q.place i).phase := by
      rw [hx, ← hp]; exact Function.update_eq_self _ _
    simp only [goto, phase_update, hph]
    exact h.lock

/-- **`down(&mutex)`** -/
theorem At.enter (h : At q a o) (hp : (q.place t).phase = .outside)
    (hs : (q.place t).sem t = none) (hu : ¬ Unserved t (a (.s t)) (q.place t))
    (hw : (q.place t).todo t = ∅) (hawake : awake.phase = .inside)
    (hasleep : asleep.phase = .waiting) (hsem : asleep.sem t = some .mutex)
    (h1 : Seat t (a (.s t)) (q.stateSema t) awake) (h2 : Seat t (a (.s t)) (q.stateSema t) asleep)
    (ha : ∀ b f place, Aims b f place t awake) :
    ∃ q', q.down .mutex t awake asleep = some q' ∧ Inv q' := by
  obtain ⟨k, hk, ok, hin, -⟩ := Kern.down_spec (s := .mutex) (p := t) h.ok trivial
    (by rw [h.sleeps, hs])
  have hlock := h.lock.down hp
  have hb : (fun i => Function.update a .mutex ((a .mutex).down t).1 (.s i)) =
      fun i => a (.s i) := by
    funext i; simp
  by_cases hv : 0 < (a .mutex).value
  · simp only [hv, if_true] at hlock hin
    refine ⟨{ q with kern := k }.goto t awake, by simp [down, hk, hv],
      Function.update a .mutex ((a .mutex).down t).1, some t, ok,
      sleeps_update (q := q) (k := k) h (fun i hi => by simp [hin, hi]) ?_, ?_, ?_⟩
    · simp [hin, sem_of_inside hawake]
    · simpa [goto, phase_update, hawake] using hlock
    · rw [hb]
      exact h.rules.move h1 (fun _ _ => rfl) (fun hu' => absurd hu' hu) (ha _ _ _) (by simp [hw])
  · simp only [hv, if_false] at hlock hin
    refine ⟨{ q with kern := k }.goto t asleep, by simp [down, hk, hv],
      Function.update a .mutex ((a .mutex).down t).1, o, ok,
      sleeps_update (q := q) (k := k) h (fun i hi => by simp [hin, hi]) ?_, ?_, ?_⟩
    · simp [hin, hsem]
    · simpa [goto, phase_update, hasleep] using hlock
    · rw [hb]
      exact h.rules.move h2 (fun _ _ => rfl) (fun hu' => absurd hu' hu)
        (Aims.of_outside (by simp [hasleep])) (by simp [hw])

/-- **The return of `down(&mutex)`** after a sleep. -/
theorem At.wake (h : At q a o) (hp : (q.place t).phase = .waiting)
    (hs : (q.place t).sem t = some .mutex) (hr : (q.kern.proc t).state = .runnable)
    (hu : ¬ Unserved t (a (.s t)) (q.place t)) (hw : (q.place t).todo t = ∅)
    (hawake : awake.phase = .inside) (h1 : Seat t (a (.s t)) (q.stateSema t) awake)
    (ha : ∀ b f place, Aims b f place t awake) :
    ∃ q', q.downResume .mutex t awake = some q' ∧ Inv q' := by
  obtain ⟨hq, hk, ok⟩ := Kern.downResume_spec h.ok (by rw [h.sleeps, hs]) hr
  refine ⟨{ q with kern := q.kern.setInDown t none }.goto t awake, by simp [downResume, hk], a, o,
    ok, sleeps_update (q := q) (k := q.kern.setInDown t none) h (fun i hi => by simp [hi]) ?_, ?_,
    ?_⟩
  · simp [sem_of_inside hawake]
  · simpa [goto, phase_update, hawake] using h.lock.resume hp hq
  · exact h.rules.move h1 (fun _ _ => rfl) (fun hu' => absurd hu' hu) (ha _ _ _) (by simp [hw])

/-- **`up(&mutex)`** -/
theorem At.leave (h : At q a o) (hp : (q.place t).phase = .inside) (hx : x.phase = .outside)
    (hs : x.sem t = none) (hw : (q.place t).todo t = ∅)
    (h1 : Seat t (a (.s t)) (q.stateSema t) x) : ∃ q', q.up .mutex t x = some q' ∧ Inv q' := by
  have h0 : (a .mutex).value = 0 := by simp [h.lock.value, h.lock.inside hp]
  obtain ⟨k, hk, ok, hin, -⟩ := Kern.up_spec (s := .mutex) h.ok trivial (by omega)
  have hb : (fun i => Function.update a .mutex (a .mutex).up.1 (.s i)) = fun i => a (.s i) := by
    funext i; simp
  refine ⟨{ q with kern := k }.goto t x, by simp [up, hk], _, (a .mutex).queue.head?, ok,
    sleeps_update (q := q) (k := k) h (fun i _ => by rw [hin]) ?_, ?_, ?_⟩
  · rw [hin, h.sleeps, sem_of_inside hp, hs]
  · simpa [goto, phase_update, hx] using h.lock.up hp
  · rw [hb]
    have hu : ¬ Unserved t (a (.s t)) (q.place t) := by
      refine not_unserved ?_ ?_
      all_goals
        intro hp'
        rw [hp'] at hp
        cases hp
    exact h.rules.move h1 (fun _ _ => rfl) (fun hu' => absurd hu' hu)
      (Aims.of_outside (by simp [hx])) (by simp [hw])

/-- **`up(&s[..])`** -/
theorem At.upS (h : At q a o) (hp : q.place t = .upS c) :
    ∃ q', q.up (.s (c.who t)) t c.semaNext = some q' ∧ Inv q' := by
  have hin : (q.place t).phase = .inside := by rw [hp]; rfl
  have hx : c.semaNext.phase = .inside := by cases c <;> rfl
  have hv : (a (.s (c.who t))).value + 1 < 2 ^ 31 := by
    have hseat := h.rules.seat (c.who t)
    cases hq : q.place (c.who t) <;> simp only [hq, Seat] at hseat
    case takeUp | own | ownAsleep => obtain ⟨hb, -⟩ | ⟨hb, -⟩ := hseat <;> simp [hb]
    all_goals simp [hseat.2]
  obtain ⟨k, hk, ok, hin', -⟩ := Kern.up_spec (s := .s (c.who t)) h.ok trivial hv
  refine ⟨{ q with kern := k }.goto t c.semaNext, by simp [up, hk], _, o, ok,
    sleeps_update (q := q) (k := k) h (fun i _ => by rw [hin']) ?_, ?_, ?_⟩
  · rw [hin', h.sleeps, sem_of_inside hin, sem_of_inside hx]
  · have hph : Function.update (fun i => (q.place i).phase) t c.semaNext.phase =
        fun i => (q.place i).phase := by
      rw [hx, ← hin]; exact Function.update_eq_self _ _
    simp only [goto, phase_update, hph]
    simpa using h.lock
  · rw [private_update]
    exact h.rules.upS (h.alone hin) hp

/-- **`down(&s[i])`** returns at once if somebody has let the philosopher eat. -/
theorem At.own (h : At q a o) (hp : q.place t = .own) :
    ∃ q', q.down (.s t) t .eating .ownAsleep = some q' ∧ Inv q' := by
  have hseat := h.rules.seat t
  rw [hp] at hseat
  obtain ⟨k, hk, ok, hin, -⟩ := Kern.down_spec (s := .s t) (p := t) h.ok trivial
    (by rw [h.sleeps, hp]; rfl)
  have hlock : ∀ x : SemaPlace, x.phase = .outside → Function.update (fun i => (q.place i).phase) t
      x.phase = fun i => (q.place i).phase := fun x hx => by
    rw [hx, show Phase.outside = (q.place t).phase by rw [hp]; rfl]
    exact Function.update_eq_self _ _
  obtain ⟨hb, hf⟩ | ⟨hb, hf⟩ := hseat
  · simp only [hb] at hk hin ok
    refine ⟨{ q with kern := k }.goto t .ownAsleep, by simp [down, hk], _, o, ok,
      sleeps_update (q := q) (k := k) h (fun i hi => by simp [hin, hi])
        (by simp [hin, SemaPlace.sem]), ?_, ?_⟩
    · simp only [goto, phase_update, hlock .ownAsleep rfl]
      simpa using h.lock
    · rw [private_update]
      refine h.rules.move (Or.inl ⟨by simp [Sema.down], hf⟩) (fun j hj => by simp [hj])
        (fun _ => Or.inr ⟨rfl, by simp [Sema.down]⟩) trivial (by simp [hp, SemaPlace.todo])
  · simp only [hb] at hk hin ok
    refine ⟨{ q with kern := k }.goto t .eating, by simp [down, hk], _, o, ok,
      sleeps_update (q := q) (k := k) h (fun i hi => by simp [hin, hi])
        (by simp [hin, SemaPlace.sem]), ?_, ?_⟩
    · simp only [goto, phase_update, hlock .eating rfl]
      simpa using h.lock
    · rw [private_update]
      refine h.rules.move ⟨hf, by simp [Sema.down]⟩ (fun j hj => by simp [hj]) ?_ trivial
        (by simp [hp, SemaPlace.todo])
      rintro (⟨-, hb'⟩ | ⟨hp', -⟩)
      · rw [hb] at hb'; cases hb'
      · rw [hp] at hp'; cases hp'

theorem At.ownWake (h : At q a o) (hp : q.place t = .ownAsleep)
    (hr : (q.kern.proc t).state = .runnable) :
    ∃ q', q.downResume (.s t) t .eating = some q' ∧ Inv q' := by
  have hseat := h.rules.seat t
  rw [hp] at hseat
  obtain ⟨hq, hk, ok⟩ := Kern.downResume_spec h.ok (s := .s t) (by rw [h.sleeps, hp]; rfl) hr
  have hlock : Function.update (fun i => (q.place i).phase) t SemaPlace.eating.phase =
      fun i => (q.place i).phase := by
    rw [show SemaPlace.eating.phase = (q.place t).phase by rw [hp]; rfl]
    exact Function.update_eq_self _ _
  obtain ⟨hb, -⟩ | ⟨hb, hf⟩ := hseat
  · exact absurd (by simp [hb]) hq
  · refine ⟨{ q with kern := q.kern.setInDown t none }.goto t .eating, by simp [downResume, hk], a,
      o, ok, sleeps_update (q := q) (k := q.kern.setInDown t none) h (fun i hi => by simp [hi])
        (by simp [SemaPlace.sem]), ?_, ?_⟩
    · simpa only [goto, phase_update, hlock] using h.lock
    · refine h.rules.move ⟨hf, hb⟩ (fun _ _ => rfl) ?_ trivial (by simp [hp, SemaPlace.todo])
      rintro (⟨hp', -⟩ | ⟨-, hb'⟩)
      · rw [hp] at hp'; cases hp'
      · rw [hb] at hb'; cases hb'

/-- **One step.** -/
theorem Inv.step (h : q.Inv) (hl : machine.Legal q t) : ∃ q', q.step t = some q' ∧ q'.Inv := by
  obtain ⟨a, o, h⟩ := h
  have hseat := h.rules.seat t
  have hrun : ∀ s, (q.place t).sem t = some s → (q.kern.proc t).state = .runnable := fun s hs =>
    hl (by simp [hs])
  have halone := h.alone (t := t)
  cases hp : q.place t <;> simp only [PhiSema.step, hp] <;>
    rw [hp] at hseat hrun halone
  case thinking =>
    apply h.enter <;> simp_all [phase, SemaPlace.sem, SemaPlace.todo, Unserved, Seat, Aims]
  case eating =>
    apply h.enter <;> simp_all [phase, SemaPlace.sem, SemaPlace.todo, Unserved, Seat, Aims]
  case takeAsleep =>
    apply h.wake <;> simp_all [phase, SemaPlace.sem, SemaPlace.todo, Unserved, Seat, Aims]
  case putAsleep =>
    apply h.wake <;> simp_all [phase, SemaPlace.sem, SemaPlace.todo, Unserved, Seat, Aims]
  case takeSet => exact ⟨_, rfl, h.stmt (by rw [hp]; rfl) rfl (h.rules.takeSet (halone rfl) hp)⟩
  case putSet => exact ⟨_, rfl, h.stmt (by rw [hp]; rfl) rfl (h.rules.putSet (halone rfl) hp)⟩
  case eat c => exact ⟨_, rfl, h.stmt (by rw [hp]; rfl) rfl (h.rules.eat (halone rfl) hp)⟩
  case test c =>
    refine ⟨_, rfl, h.stmt (by rw [hp]; rfl) ?_ (h.rules.test (halone rfl) hp)⟩
    split_ifs
    · rfl
    · cases c <;> rfl
  case upS c => exact h.upS hp
  case takeUp => apply h.leave <;> simp_all [phase, SemaPlace.sem, SemaPlace.todo, Seat]
  case putUp => apply h.leave <;> simp_all [phase, SemaPlace.sem, SemaPlace.todo, Seat]
  case own => exact h.own hp
  case ownAsleep => exact h.ownWake hp (hrun _ rfl)

theorem init_inv {k : Kern PhiSem (Fin N)} (hk : ∀ i, k.inDown i = none) : (init k).Inv := by
  have h0 : k.Ok (fun _ => False) fun _ => ⟨0, []⟩ :=
    ⟨by simp, by simp, by simp, fun t s ht => by simp [hk] at ht⟩
  have h1 := Kern.semInit_spec h0 (s := .mutex) id 1
  obtain ⟨a, ha, hnew, hold, hd⟩ := Kern.semInits_spec (g := PhiSem.s)
    (fun _ _ h => PhiSem.s.inj h) h1 (by simp) (List.nodup_finRange N)
  have hall : (fun s => (s = PhiSem.mutex ∨ False) ∨ ∃ i ∈ List.finRange N, s = .s i) =
      fun _ => True := by
    funext s; cases s <;> simp
  have hs : ∀ i, a (.s i) = ⟨0, []⟩ := fun i => hnew i (List.mem_finRange i)
  have hm : a .mutex = ⟨1, []⟩ := by rw [hold _ (by simp)]; rfl
  refine ⟨a, none, hall ▸ ha, fun i => (congrFun hd i).trans (hk i), ?_, fun i => ⟨rfl, hs i⟩,
    fun _ => trivial, fun i hi => ?_, fun i hi => ?_⟩
  · rw [hm]; exact Mutex.init
  · cases hi
  · cases hi

theorem reach_inv {q : PhiSema} (h : machine.Reach q) : q.Inv := by
  refine h.invariant (fun q hq => ?_) fun _ _ hi hl => hi.step hl
  obtain ⟨k, hk, rfl⟩ := hq
  exact init_inv hk

/-- **The philosophers with semaphores dine.** -/
theorem Inv.dined {q : PhiSema} (h : q.Inv) :
    Dined q.stateSema (q.place · = .eating) fun i => (q.place i).phase = .inside := by
  obtain ⟨a, o, h⟩ := h
  refine Philosophers.dined h.rules.apart (fun i hi => ?_) h.rules.served fun i j hj => ⟨j, ?_⟩
  · have hseat := h.rules.seat i
    rw [hi] at hseat
    exact hseat.1
  · cases hp : q.place j <;> rw [hp] at hj <;>
      first | rfl | exact absurd hj (Set.notMem_empty i)

end PhiSema

end Ucore.Philosophers
