/-
  `get_pid` returns a pid that no process has.

  The invariant is that no listed process has a pid strictly between `last_pid` and `next_safe`.
  A walk keeps it for the processes it has passed (`pidWalk_gap`), and starts again only after
  `last_pid` has come closer to a free pid (`pidWalk_closer`), so it ends (`pidRepeat_spec`).
  `PidTable` is the invariant for the processes on the list: a pid that `get_pid` returns is free
  (`getPid_eq_some`), and one is returned if there is a free one (`getPid_ends`).
-/
import Ucore.Process.Tree
import Mathlib.Data.Finset.Card
import Mathlib.Order.Interval.Finset.Nat
import Mathlib.Data.Int.Interval
import Mathlib.Tactic.Linarith

namespace Ucore

open Intrusive

set_option linter.unusedSectionVars false

namespace Procs

variable {P : Type} {pid : P → ℤ} {procs : List P} {last safe f : ℤ}

/-- How far `last` is from `f`, counting up and wrapping around at `maxPid`. -/
def pidDistance (f last : ℤ) : ℕ :=
  if last ≤ f then (f - last).toNat else (maxPid - 1 - last + f).toNat

/-- One step towards `f`. -/
theorem pidDistance_succ (hf : 1 ≤ f ∧ f < maxPid) (hl : 1 ≤ last ∧ last < maxPid)
    (hne : last ≠ f) :
    pidDistance f (if last + 1 ≥ maxPid then 1 else last + 1) < pidDistance f last := by
  simp only [pidDistance]
  split_ifs <;> omega

/-- One walk, from a `last` that is not beyond the pids below `safe` seen so far (`seen`). -/
theorem pidWalk_gap (hl : 1 ≤ last ∧ last < safe) (hs : safe ≤ maxPid) (seen : List P)
    (hseen : ∀ p ∈ seen, pid p < last ∨ safe ≤ pid p) :
    let (last', safe', again) := pidWalk pid procs last safe
    1 ≤ last' ∧ last' < safe' ∧ safe' ≤ maxPid ∧ (again = true → safe' = maxPid) ∧
      (again = false → ∀ p ∈ seen ++ procs, pid p < last' ∨ safe' ≤ pid p) := by
  induction procs generalizing last safe seen with
  | nil => simpa [pidWalk] using ⟨hl.1, hl.2, hs, hseen⟩
  | cons p procs ih =>
    have happ : seen ++ p :: procs = (seen ++ [p]) ++ procs := by simp
    rw [happ]
    by_cases hp : pid p = last
    · by_cases hn : last + 1 ≥ safe
      · simp only [pidWalk, if_pos hp, if_pos hn]
        refine ⟨?_, ?_, le_rfl, fun _ => trivial, by simp⟩
        · split_ifs <;> omega
        · split_ifs <;> simp only [maxPid, maxProcess] at * <;> omega
      · simp only [pidWalk, if_pos hp, if_neg hn]
        refine ih (by omega) hs (seen ++ [p]) fun q hq => ?_
        simp only [List.mem_append, List.mem_singleton] at hq
        rcases hq with hq | rfl
        · have := hseen q hq; omega
        · left; omega
    · by_cases hgt : pid p > last ∧ safe > pid p
      · simp only [pidWalk, if_neg hp, if_pos hgt]
        refine ih ⟨hl.1, hgt.1⟩ (by omega) (seen ++ [p]) fun q hq => ?_
        simp only [List.mem_append, List.mem_singleton] at hq
        rcases hq with hq | rfl
        · have := hseen q hq; omega
        · right; omega
      · simp only [pidWalk, if_neg hp, if_neg hgt]
        refine ih hl hs (seen ++ [p]) fun q hq => ?_
        simp only [List.mem_append, List.mem_singleton] at hq
        rcases hq with hq | rfl
        · exact hseen q hq
        · omega

/-- A walk that has to start again has come closer to every free pid. -/
theorem pidWalk_closer (hf : 1 ≤ f ∧ f < maxPid) (hfree : ∀ p ∈ procs, pid p ≠ f)
    (hl : 1 ≤ last ∧ last < safe) (hs : safe ≤ maxPid) :
    (pidWalk pid procs last safe).2.2 = true →
      pidDistance f (pidWalk pid procs last safe).1 < pidDistance f last := by
  induction procs generalizing last safe with
  | nil => simp [pidWalk]
  | cons p procs ih =>
    have hfree' : ∀ p ∈ procs, pid p ≠ f := fun q hq => hfree q (by simp [hq])
    by_cases hp : pid p = last
    · have hlf : last ≠ f := hp ▸ hfree p (by simp)
      have hd := pidDistance_succ hf ⟨hl.1, by omega⟩ hlf
      by_cases hn : last + 1 ≥ safe
      · simp only [pidWalk, if_pos hp, if_pos hn]
        exact fun _ => hd
      · have hnm : ¬ last + 1 ≥ maxPid := by omega
        rw [if_neg hnm] at hd
        simp only [pidWalk, if_pos hp, if_neg hn]
        exact fun ha => (ih hfree' (by omega) hs ha).trans hd
    · by_cases hgt : pid p > last ∧ safe > pid p
      · simp only [pidWalk, if_neg hp, if_pos hgt]
        exact ih hfree' ⟨hl.1, hgt.1⟩ (by omega)
      · simp only [pidWalk, if_neg hp, if_neg hgt]
        exact ih hfree' hl hs

/-- The search ends only with no pid between its two results. -/
theorem pidRepeat_gap : ∀ {k : ℕ} {last last' safe' : ℤ}, 1 ≤ last ∧ last < maxPid →
    pidRepeat pid procs k last maxPid = some (last', safe') →
      1 ≤ last' ∧ last' < safe' ∧ safe' ≤ maxPid ∧
        ∀ p ∈ procs, pid p < last' ∨ safe' ≤ pid p := by
  intro k
  induction k with
  | zero => intro last last' safe' _ h; cases h
  | succ k ih =>
    intro last last' safe' hl h
    have hw := @pidWalk_gap _ pid procs _ _ hl le_rfl [] (by simp)
    simp only [pidRepeat] at h
    revert hw h
    generalize pidWalk pid procs last maxPid = r
    obtain ⟨l, s, again⟩ := r
    rintro h ⟨h1, h2, h3, h4, h5⟩
    cases again with
    | false =>
      simp only [Option.some.injEq, Prod.mk.injEq] at h
      obtain ⟨rfl, rfl⟩ := h
      exact ⟨h1, h2, h3, h5 rfl⟩
    | true =>
      obtain rfl := h4 rfl
      exact ih ⟨h1, h2⟩ h

/-- The search ends, with no pid between its two results. -/
theorem pidRepeat_spec (hf : 1 ≤ f ∧ f < maxPid) (hfree : ∀ p ∈ procs, pid p ≠ f) {k : ℕ}
    {last : ℤ} (hl : 1 ≤ last ∧ last < maxPid) (hk : pidDistance f last < k) :
    ∃ last' safe', pidRepeat pid procs k last maxPid = some (last', safe') ∧
      1 ≤ last' ∧ last' < safe' ∧ safe' ≤ maxPid ∧
      ∀ p ∈ procs, pid p < last' ∨ safe' ≤ pid p := by
  have hends : ∀ {k : ℕ} {last : ℤ}, 1 ≤ last ∧ last < maxPid → pidDistance f last < k →
      ∃ r, pidRepeat pid procs k last maxPid = some r := by
    intro k
    induction k with
    | zero => intro last _ hk; omega
    | succ k ih =>
      intro last hl hk
      have hw := @pidWalk_gap _ pid procs _ _ hl le_rfl [] (by simp)
      have hd := pidWalk_closer hf hfree hl le_rfl
      simp only [pidRepeat]
      revert hw hd
      generalize pidWalk pid procs last maxPid = r
      obtain ⟨l, s, again⟩ := r
      rintro ⟨h1, h2, -, h4, -⟩ hd
      cases again with
      | false => exact ⟨(l, s), rfl⟩
      | true =>
        obtain rfl := h4 rfl
        have hd' : pidDistance f l < pidDistance f last := hd rfl
        exact ih ⟨h1, h2⟩ (by omega)
  obtain ⟨⟨last', safe'⟩, h⟩ := hends hl hk
  exact ⟨last', safe', h, pidRepeat_gap hl h⟩

/-- Fewer processes than pids leave a pid free. -/
theorem exists_free_pid [DecidableEq P] (pid : P → ℤ) {ps : Finset P}
    (hc : (ps.card : ℤ) < maxPid - 1) :
    ∃ f, 1 ≤ f ∧ f < maxPid ∧ ∀ p ∈ ps, pid p ≠ f := by
  have h : (ps.image pid).card < (Finset.Ico 1 maxPid).card := by
    have h1 := Finset.card_image_le (s := ps) (f := pid)
    have h2 : (Finset.Ico 1 maxPid).card = (maxPid - 1).toNat := Int.card_Ico _ _
    have h3 : maxPid = 8192 := rfl
    omega
  obtain ⟨f, hf, hn⟩ := Finset.exists_mem_notMem_of_card_lt_card h
  rw [Finset.mem_Ico] at hf
  exact ⟨f, hf.1, hf.2, fun p hp h => hn (h ▸ Finset.mem_image_of_mem pid hp)⟩

/-! ## The processes on the list -/

section
variable {P : Type} [DecidableEq P]

theorem mapM_some {α β : Type} {f : β → α} {g : α → Option β} (h : ∀ x, g (f x) = some x) :
    ∀ xs : List β, (xs.map f).mapM g = some xs
  | [] => rfl
  | x :: xs => by
    simp only [List.map_cons, List.mapM_cons, h, mapM_some h xs, Option.pure_def,
      Option.bind_eq_bind, Option.bind_some]

@[simp] theorem mapM_listProc (ps : List P) : (ps.map ProcNode.listLink).mapM listProc = some ps :=
  have h : ∀ p : P, listProc (.listLink p) = some p := fun _ => rfl
  mapM_some h ps

@[simp] theorem mapM_hashedProc (ps : List P) :
    (ps.map ProcNode.hashLink).mapM hashedProc = some ps :=
  have h : ∀ p : P, hashedProc (.hashLink p) = some p := fun _ => rfl
  mapM_some h ps

/-- The processes `ps` are listed. -/
structure PidTable (s : Procs P) (ps : List P) : Prop where
  ring : Circ s.links .procList (ps.map .listLink)
  distinct : (ps.map fun p => (s.pcb p).pid).Nodup
  range : ∀ p ∈ ps, 1 ≤ (s.pcb p).pid ∧ (s.pcb p).pid < maxPid
  last : 0 ≤ s.lastPid
  safe : s.nextSafe ≤ maxPid
  gap : ∀ p ∈ ps, (s.pcb p).pid ≤ s.lastPid ∨ s.nextSafe ≤ (s.pcb p).pid

variable {s s' : Procs P} {ps : List P} {pid : ℤ}

namespace PidTable

/-- There are not more processes than pids. -/
theorem length_le (h : PidTable s ps) : (ps.length : ℤ) ≤ maxPid - 1 := by
  have hsub : (ps.map fun p => (s.pcb p).pid).toFinset ⊆ Finset.Ico 1 maxPid := fun x hx => by
    obtain ⟨p, hp, rfl⟩ := List.mem_map.1 (List.mem_toFinset.1 hx)
    exact Finset.mem_Ico.2 (h.range p hp)
  have hcard := Finset.card_le_card hsub
  rw [List.toFinset_card_of_nodup h.distinct, List.length_map, Int.card_Ico] at hcard
  have hmax : maxPid = 8192 := rfl
  omega

theorem length_lt_fuel (h : PidTable s ps) : (ps.map ProcNode.listLink).length < fuel := by
  have hlen := h.length_le
  have hmax : maxPid = 8192 := rfl
  have hfuel : fuel = 16384 := rfl
  rw [List.length_map]
  omega

theorem listNodes_eq (h : PidTable s ps) :
    listNodes s.links .procList fuel .procList = some (ps.map .listLink) :=
  listNodes_circ h.ring h.length_lt_fuel

/-- What `get_pid` does: the next pid, or the walks. -/
theorem getPid_eq (h : PidTable s ps) : s.getPid =
    if s.lastPid + 1 ≥ maxPid ∨ s.lastPid + 1 ≥ s.nextSafe then
      (pidRepeat (fun p => (s.pcb p).pid) ps fuel
        (if s.lastPid + 1 ≥ maxPid then 1 else s.lastPid + 1) maxPid).map fun (last, safe) =>
          (last, { s with lastPid := last, nextSafe := safe })
    else some (s.lastPid + 1, { s with lastPid := s.lastPid + 1 }) := by
  have hin : ∀ last : ℤ, ((do
      let procs ← (← listNodes s.links .procList fuel .procList).mapM listProc
      let (last, safe) ← pidRepeat (fun p => (s.pcb p).pid) procs fuel last maxPid
      some (last, { s with lastPid := last, nextSafe := safe })) : Option (ℤ × Procs P)) =
        (pidRepeat (fun p => (s.pcb p).pid) ps fuel last maxPid).map fun (last, safe) =>
          (last, { s with lastPid := last, nextSafe := safe }) := fun last => by
    simp only [h.listNodes_eq, Option.bind_eq_bind, Option.bind_some, mapM_listProc]
    cases pidRepeat (fun p => (s.pcb p).pid) ps fuel last maxPid <;> rfl
  simp only [getPid, hin]
  split_ifs with h1 h2 h3 h4
  · rfl
  · exact absurd (.inl h1) h2
  · rfl
  · exact absurd (.inr h3) h4
  · rename_i h5
    exact absurd h5 (not_or.2 ⟨h1, h3⟩)
  · rfl

/-- A pid that is returned is free, and no pid of a listed process is behind it below `safe`. -/
theorem getPid_eq_some (h : PidTable s ps) (hg : s.getPid = some (pid, s')) :
    ∃ safe, s' = { s with lastPid := pid, nextSafe := safe } ∧ 1 ≤ pid ∧ pid < maxPid ∧
      safe ≤ maxPid ∧ ∀ p ∈ ps, (s.pcb p).pid < pid ∨ pid < (s.pcb p).pid ∧
        safe ≤ (s.pcb p).pid := by
  have hlast := h.last
  have hmax : maxPid = 8192 := rfl
  rw [h.getPid_eq] at hg
  split at hg
  · obtain ⟨⟨l, sf⟩, hr, he⟩ := Option.map_eq_some_iff.1 hg
    cases he
    obtain ⟨h1, h2, h3, h4⟩ := pidRepeat_gap (by split <;> omega) hr
    exact ⟨sf, rfl, h1, by omega, h3, fun p hp => by have := h4 p hp; omega⟩
  · rename_i hlt
    cases hg
    exact ⟨s.nextSafe, rfl, by omega, by omega, h.safe, fun p hp => by
      have := h.gap p hp; omega⟩

/-- **`get_pid` ends** if some pid is free. -/
theorem getPid_ends (h : PidTable s ps) (hc : (ps.length : ℤ) < maxPid - 1) :
    ∃ pid s', s.getPid = some (pid, s') := by
  have hlast := h.last
  have hmax : maxPid = 8192 := rfl
  have hfuel : fuel = 16384 := rfl
  have hcard : (ps.toFinset.card : ℤ) < maxPid - 1 := by
    have := ps.toFinset_card_le
    omega
  obtain ⟨f, hf1, hf2, hfree⟩ := exists_free_pid (fun p => (s.pcb p).pid) hcard
  rw [h.getPid_eq]
  split
  · have hfree' : ∀ p ∈ ps, (fun p => (s.pcb p).pid) p ≠ f := fun p hp =>
      hfree p (List.mem_toFinset.2 hp)
    have hlast : 1 ≤ (if s.lastPid + 1 ≥ maxPid then 1 else s.lastPid + 1) ∧
        (if s.lastPid + 1 ≥ maxPid then 1 else s.lastPid + 1) < maxPid := by
      split <;> omega
    obtain ⟨l, sf, hr, -⟩ := pidRepeat_spec ⟨hf1, hf2⟩ hfree' (k := fuel) hlast
      (by simp only [pidDistance]; split_ifs <;> omega)
    exact ⟨_, _, by rw [hr]; rfl⟩
  · exact ⟨_, _, rfl⟩

end PidTable

end

end Procs

end Ucore
