/-
  Texts that are rewritten from left to right in the buffer in which they lie.

  The buffer holds the text and a terminator `z` behind it.  What a character becomes may depend on
  its position.

  * `Sweep.buffer`: the buffer when the characters before a position are rewritten;
  * `Sweep.marks`: the marked positions before a position;
  * `Sweep.run`: the characters from a position on, as long as they are in a set of positions;
  * `Sweep.run_terminated`: a run, rewritten, with the terminator behind it.
-/
import Mathlib.Data.List.Basic
import Mathlib.Data.Nat.Basic

namespace Sweep

variable {α : Type*} {f : ℕ → α → α} {text : List α} {z c : α} {p q i j n : ℕ} {m : ℕ → Bool}

/-! ## The buffer -/

def buffer (f : ℕ → α → α) (text : List α) (z : α) (p : ℕ) : List α :=
  (text.mapIdx fun i c => if i < p then f i c else c) ++ [z]

theorem buffer_zero : buffer f text z 0 = text ++ [z] := by
  rw [buffer]
  refine congrArg (· ++ [z]) (List.ext_getElem? fun j => ?_)
  rw [List.getElem?_mapIdx]
  cases text[j]? <;> rfl

@[simp] theorem length_buffer : (buffer f text z p).length = text.length + 1 := by
  simp [buffer]

theorem getElem?_buffer (h : text[j]? = some c) :
    (buffer f text z p)[j]? = some (if j < p then f j c else c) := by
  have hj := (List.getElem?_eq_some_iff.1 h).1
  rw [buffer, List.getElem?_append_left (by simpa using hj), List.getElem?_mapIdx, h,
    Option.map_some]

theorem buffer_at (h : text[p]? = some c) : (buffer f text z p)[p]? = some c := by
  rw [getElem?_buffer h, if_neg (Nat.lt_irrefl p)]

theorem buffer_end : (buffer f text z p)[text.length]? = some z := by
  rw [buffer, List.getElem?_append_right (by simp)]
  simp

/-- A character is rewritten. -/
theorem set_buffer (h : text[p]? = some c) :
    (buffer f text z p).set p (f p c) = buffer f text z (p + 1) := by
  have hp := (List.getElem?_eq_some_iff.1 h).1
  refine List.ext_getElem? fun j => ?_
  obtain rfl | hj := eq_or_ne j p
  · rw [List.getElem?_set_self (by rw [length_buffer]; omega), getElem?_buffer h,
      if_pos (Nat.lt_succ_self j)]
  · rw [List.getElem?_set_ne hj.symm]
    obtain hl | hl := Nat.lt_or_ge j text.length
    · have hc := List.getElem?_eq_getElem hl
      rw [getElem?_buffer hc, getElem?_buffer hc]
      have hiff : j < p ↔ j < p + 1 := by omega
      simp only [hiff]
    · obtain rfl | hl := Nat.eq_or_lt_of_le hl
      · rw [buffer_end, buffer_end]
      · rw [List.getElem?_eq_none (by rw [length_buffer]; omega),
          List.getElem?_eq_none (by rw [length_buffer]; omega)]

/-- A character stays. -/
theorem buffer_succ (h : text[p]? = some c) (hf : f p c = c) :
    buffer f text z (p + 1) = buffer f text z p := by
  rw [← set_buffer h, hf]
  obtain ⟨hp, hc⟩ := List.getElem?_eq_some_iff.1 (buffer_at (f := f) (z := z) h)
  conv_lhs => rw [← hc]
  exact List.set_getElem_self hp

/-! ## Marks -/

def marks (m : ℕ → Bool) (n : ℕ) : List ℕ := (List.range n).filter m

theorem marks_succ (h : m n = true) : marks m (n + 1) = marks m n ++ [n] := by
  rw [marks, List.range_succ, List.filter_append, List.filter_cons_of_pos h]
  rfl

theorem marks_add (h : ∀ j, p ≤ j → j < p + n → m j = false) : marks m (p + n) = marks m p := by
  induction n with
  | zero => rfl
  | succ n ih =>
    have hn := h (p + n) (by omega) (by omega)
    rw [← Nat.add_assoc, marks, List.range_succ, List.filter_append,
      List.filter_cons_of_neg (by simp [hn]), List.filter_nil, List.append_nil]
    exact ih fun j h1 h2 => h j h1 (by omega)

/-- There is no mark between two positions. -/
theorem marks_of_none (hpq : p ≤ q) (h : ∀ j, p ≤ j → j < q → m j = false) :
    marks m q = marks m p := by
  obtain ⟨n, rfl⟩ := Nat.exists_eq_add_of_le hpq
  exact marks_add h

theorem mem_marks : i ∈ marks m n ↔ i < n ∧ m i = true := by
  rw [marks, List.mem_filter, List.mem_range]

theorem marks_prefix (h : p ≤ q) : marks m p <+: marks m q := by
  obtain ⟨n, rfl⟩ := Nat.exists_eq_add_of_le h
  induction n with
  | zero => exact List.prefix_rfl
  | succ n ih =>
    refine (ih (by omega)).trans ?_
    rw [← Nat.add_assoc, marks, marks, List.range_succ, List.filter_append]
    exact List.prefix_append ..

/-! ## Runs -/

/-- The number of positions from `i` on, before `n`, as long as they are in `m`. -/
def runLength (m : ℕ → Bool) (n i : ℕ) : ℕ := ((List.range' i (n - i)).takeWhile m).length

def run (m : ℕ → Bool) (text : List α) (i : ℕ) : List α :=
  (text.drop i).take (runLength m text.length i)

theorem length_takeWhile_range' : ∀ {k i n : ℕ}, n ≤ k → (∀ j, i ≤ j → j < i + n → m j = true) →
    (n < k → m (i + n) = false) → ((List.range' i k).takeWhile m).length = n
  | 0, i, n, hn, _, _ => by
    rw [Nat.le_zero.1 hn]
    rfl
  | k + 1, i, 0, _, _, hend => by
    rw [List.range'_succ, List.takeWhile_cons_of_neg (by simpa using hend (Nat.succ_pos k))]
    rfl
  | k + 1, i, n + 1, hn, hm, hend => by
    have ih : ((List.range' (i + 1) k).takeWhile m).length = n :=
      length_takeWhile_range' (by omega) (fun j h1 h2 => hm j (by omega) (by omega)) fun h => by
        have hj := hend (by omega)
        rwa [← Nat.add_assoc, Nat.add_right_comm] at hj
    rw [List.range'_succ, List.takeWhile_cons_of_pos (hm i (Nat.le_refl i) (by omega)),
      List.length_cons, ih]

/-- How far a run goes. -/
theorem runLength_eq (hn : i + n ≤ p) (hm : ∀ j, i ≤ j → j < i + n → m j = true)
    (hend : i + n < p → m (i + n) = false) : runLength m p i = n :=
  length_takeWhile_range' (by omega) hm fun h => hend (by omega)

theorem length_run (h : i + runLength m text.length i ≤ text.length) :
    (run m text i).length = runLength m text.length i := by
  rw [run, List.length_take, List.length_drop]
  omega

/-- A run ends where the text does, or where the positions in `m` do. -/
theorem exists_run (m : ℕ → Bool) : ∀ {k i : ℕ}, ∃ n ≤ k,
    (∀ j, i ≤ j → j < i + n → m j = true) ∧ (n < k → m (i + n) = false)
  | 0, i => ⟨0, Nat.le_refl 0, fun j h1 h2 => by omega, fun h => by omega⟩
  | k + 1, i => by
    cases hi : m i with
    | false => exact ⟨0, Nat.zero_le _, fun j h1 h2 => by omega, fun _ => hi⟩
    | true =>
      obtain ⟨n, hn, hm, hend⟩ := exists_run m (k := k) (i := i + 1)
      refine ⟨n + 1, Nat.succ_le_succ hn, fun j h1 h2 => ?_, fun h => ?_⟩
      · obtain rfl | hj := Nat.eq_or_lt_of_le h1
        · exact hi
        · exact hm j hj (by omega)
      · have hj := hend (Nat.lt_of_succ_lt_succ h)
        rwa [Nat.add_right_comm] at hj

/-- A run does not go past a position that is not within one. -/
theorem run_le {e : ℕ} (h : i < e) (he : e ≤ n) (hend : e < n → m (e - 1) = true → m e = false) :
    i + runLength m n i ≤ e := by
  obtain ⟨k, hk, hin, hk'⟩ := exists_run m (k := n - i) (i := i)
  have hlen : runLength m n i = k := runLength_eq (by omega) hin fun h => hk' (by omega)
  rw [hlen]
  by_contra hlt
  have hm := hend (by omega) (hin _ (by omega) (by omega))
  rw [hin e (by omega) (by omega)] at hm
  cases hm

/-- **A run**, when the characters in it and what follows are rewritten. -/
theorem run_terminated {g : α → α} (hi : i ≤ text.length)
    (hm : ∀ j c, text[j]? = some c → m j = true → f j c = g c)
    (hz : ∀ j c, text[j]? = some c → m j = false → f j c = z)
    (hp : i + runLength m text.length i < p ∨ p = text.length) :
    (run m text i).map g ++ [z] <+: (buffer f text z p).drop i := by
  obtain ⟨n, hn, hin, hend⟩ := exists_run m (k := text.length - i) (i := i)
  have hlen : runLength m text.length i = n :=
    runLength_eq (by omega) hin fun h => hend (by omega)
  have hrun : (run m text i).length = n := by rw [length_run (by omega), hlen]
  rw [hlen] at hp
  refine List.prefix_iff_getElem?.2 fun j hj => ?_
  have hj' : j < n + 1 := by simpa [hrun] using hj
  rw [List.getElem?_drop, List.getElem_append]
  split
  · next h =>
    rw [List.length_map, hrun] at h
    have hl : i + j < text.length := by omega
    have hc : text[i + j]? = some text[i + j] := List.getElem?_eq_getElem hl
    rw [getElem?_buffer hc, if_pos (by omega), hm _ _ hc (hin _ (by omega) (by omega))]
    simp [run]
  · next h =>
    rw [List.length_map, hrun] at h
    have hjn : j = n := by omega
    subst hjn
    rw [List.getElem_singleton]
    obtain hl | hl := Nat.lt_or_ge (i + j) text.length
    · have hc : text[i + j]? = some text[i + j] := List.getElem?_eq_getElem hl
      rw [getElem?_buffer hc, if_pos (by omega), hz _ _ hc (hend (by omega))]
    · have hl' : i + j = text.length := by omega
      rw [hl', buffer_end]

end Sweep
