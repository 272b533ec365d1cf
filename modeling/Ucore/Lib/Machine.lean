/-
  State machines whose steps can be refused, and can fail.

  A machine has initial states, a guard that says which steps its environment may take, and a step
  function; `none` is a step that fails.

  * `Reach.invariant`: what holds at the start and is kept by every step holds in every state
    reached, and no step fails if none fails from a state with the invariant;
  * `Reach.preserved`: the same for steps that may fail;
  * `Reach.run`: the states of a concrete run are reached.
-/
import Mathlib.Data.Option.Basic

structure Machine (σ ι : Type*) where
  Init : σ → Prop
  Legal : σ → ι → Prop
  step : σ → ι → Option σ

namespace Machine

variable {σ ι : Type*} {M : Machine σ ι} {s s' : σ} {i : ι}

inductive Reach (M : Machine σ ι) : σ → Prop where
  | init {s : σ} : M.Init s → Reach M s
  | step {s s' : σ} {i : ι} : Reach M s → M.Legal s i → M.step s i = some s' → Reach M s'

/-- Every legal step from a state in `I` succeeds, and leads to a state in `I`. -/
def Keeps (M : Machine σ ι) (I : σ → Prop) : Prop :=
  ∀ s i, I s → M.Legal s i → ∃ s', M.step s i = some s' ∧ I s'

/-- **Invariants.** -/
theorem Reach.invariant {I : σ → Prop} (h : M.Reach s) (h0 : ∀ s, M.Init s → I s)
    (hk : M.Keeps I) : I s := by
  induction h with
  | init hs => exact h0 _ hs
  | step _ hl hst ih =>
    obtain ⟨s', hs', hi⟩ := hk _ _ ih hl
    rw [hs', Option.some.injEq] at hst
    exact hst ▸ hi

/-- What holds at the start and is kept by the steps that succeed holds in every state reached. -/
theorem Reach.preserved {I : σ → Prop} (h : M.Reach s) (h0 : ∀ s, M.Init s → I s)
    (hk : ∀ s i s', I s → M.Legal s i → M.step s i = some s' → I s') : I s := by
  induction h with
  | init hs => exact h0 _ hs
  | step _ hl hst ih => exact hk _ _ _ ih hl hst

/-- With the machine's guard strengthened, less is reached. -/
theorem Reach.mono {N : Machine σ ι} (hi : ∀ s, M.Init s → N.Init s)
    (hl : ∀ s i, M.Legal s i → N.Legal s i) (hs : M.step = N.step) (h : M.Reach s) :
    N.Reach s := by
  induction h with
  | init h => exact .init (hi _ h)
  | step _ h1 h2 ih => exact .step ih (hl _ _ h1) (hs ▸ h2)

section
variable [∀ s i, Decidable (M.Legal s i)]

/-- Takes a list of steps; `none` if one of them is not legal, or fails. -/
def run (M : Machine σ ι) [∀ s i, Decidable (M.Legal s i)] (s : σ) : List ι → Option σ
  | [] => some s
  | i :: is => if M.Legal s i then (M.step s i).bind fun s' => M.run s' is else none

theorem Reach.run : ∀ {is : List ι} {s s' : σ}, M.Reach s → M.run s is = some s' → M.Reach s'
  | [], s, s', h, hr => by
    simp only [Machine.run, Option.some.injEq] at hr; exact hr ▸ h
  | i :: is, s, s', h, hr => by
    simp only [Machine.run] at hr
    split at hr
    · rename_i hl
      obtain ⟨s₁, h₁, h₂⟩ := Option.bind_eq_some_iff.1 hr
      exact (h.step hl h₁).run h₂
    · cases hr

end

end Machine
