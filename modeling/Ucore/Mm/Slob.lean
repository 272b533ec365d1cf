/-
  The SLOB allocator (`slob_alloc` and `slob_free` in `kern/mm/kmalloc.c`), with `align = 0` as in
  all its calls.

  `mem` holds the words of the memory at their addresses; a block starts with its number of units
  and the pointer to the next free block.  `pages` is not in the source: the pages that the SLOB
  allocator has been given.  The answers of the page allocator are an argument (`NULL` is `none`,
  also when they run out), and so is the fuel for the loops: `none` if it runs out, or if an
  assertion fails.
-/
import Ucore.Mm.Mmu
import Mathlib.Data.Finset.Insert

namespace Ucore

/-- `SLOB_UNIT` -/
def slobUnit : ℕ := 16

/-- `SLOB_UNITS` -/
def slobUnits (size : ℕ) : ℕ := (size + slobUnit - 1) / slobUnit

structure Slob where
  mem : ℕ → ℕ
  slobfree : ℕ
  pages : Finset ℕ

namespace Slob

variable (k : Slob)

def units (b : ℕ) : ℕ := k.mem b

def next (b : ℕ) : ℕ := k.mem (b + 8)

def setWord (a v : ℕ) : Slob := { k with mem := Function.update k.mem a v }

def setUnits (b n : ℕ) : Slob := k.setWord b n

def setNext (b c : ℕ) : Slob := k.setWord (b + 8) c

/-- `b + n` of a `slob_t *` -/
def ptrAdd (b n : ℕ) : ℕ := b + slobUnit * n

/-! ## `slob_free` -/

/-- The loop of `slob_free`: the block behind which `b` belongs. -/
def findPoint (b : ℕ) : ℕ → ℕ → Option ℕ
  | 0, _ => none
  | fuel + 1, cur =>
    if b > cur ∧ b < k.next cur then some cur
    else if cur ≥ k.next cur ∧ (b > cur ∨ b < k.next cur) then some cur
    else findPoint b fuel (k.next cur)

/-- The rest of `slob_free`. -/
def reinsert (b cur : ℕ) : Slob :=
  let k :=
    if ptrAdd b (k.units b) = k.next cur then
      let k := k.setUnits b (k.units b + k.units (k.next cur))
      k.setNext b (k.next (k.next cur))
    else k.setNext b (k.next cur)
  let k :=
    if ptrAdd cur (k.units cur) = b then
      let k := k.setUnits cur (k.units cur + k.units b)
      k.setNext cur (k.next b)
    else k.setNext cur b
  { k with slobfree := cur }

def slobFree (fuel b size : ℕ) : Option Slob :=
  if b = 0 then some k
  else
    let k := if size ≠ 0 then k.setUnits b (slobUnits size) else k
    (k.findPoint b fuel k.slobfree).map (k.reinsert b)

/-! ## `slob_alloc` -/

/-- The block `cur` has room enough for `units` units. -/
def take (prev cur units : ℕ) : Slob :=
  let k :=
    if k.units cur = units then k.setNext prev (k.next cur)
    else
      let k := k.setNext prev (ptrAdd cur units)
      let k := k.setUnits (k.next prev) (k.units cur - units)
      let k := k.setNext (k.next prev) (k.next cur)
      k.setUnits cur units
  { k with slobfree := prev }

/-- The loop of `slob_alloc`. -/
def allocLoop (size units : ℕ) : ℕ → Slob → List (Option ℕ) → ℕ → ℕ → Option (ℕ × Slob)
  | 0, _, _, _, _ => none
  | fuel + 1, k, answers, prev, cur =>
    if k.units cur ≥ units then some (cur, k.take prev cur units)
    else if cur = k.slobfree then
      if size = pgSize then some (0, k)
      else match answers with
        | some page :: answers =>
          ({ k with pages := insert page k.pages }.slobFree fuel page pgSize).bind fun k =>
            allocLoop size units fuel k answers k.slobfree (k.next k.slobfree)
        | _ => some (0, k)
    else allocLoop size units fuel k answers cur (k.next cur)

def slobAlloc (fuel size : ℕ) (answers : List (Option ℕ)) : Option (ℕ × Slob) :=
  if size + slobUnit < pgSize then
    allocLoop size (slobUnits size) fuel k answers k.slobfree (k.next k.slobfree)
  else none

/-! ## Fuel -/

variable {k}

theorem findPoint_more {b : ℕ} {n m : ℕ} : ∀ {cur c : ℕ}, k.findPoint b n cur = some c → n ≤ m →
    k.findPoint b m cur = some c := by
  induction n generalizing m with
  | zero => exact fun h _ => by cases h
  | succ n ih =>
    intro cur c h hle
    obtain ⟨m, rfl⟩ := Nat.exists_eq_add_of_le' (Nat.one_le_of_lt hle)
    unfold findPoint at h ⊢
    split
    · rwa [if_pos ‹_›] at h
    · rw [if_neg ‹_›] at h
      split
      · rwa [if_pos ‹_›] at h
      · rw [if_neg ‹_›] at h
        exact ih h (Nat.le_of_succ_le_succ hle)

theorem slobFree_more {b size n m : ℕ} {k' : Slob} (h : k.slobFree n b size = some k')
    (hle : n ≤ m) : k.slobFree m b size = some k' := by
  unfold slobFree at h ⊢
  split
  · rwa [if_pos ‹_›] at h
  · rw [if_neg ‹_›] at h
    obtain ⟨c, hc, rfl⟩ := Option.map_eq_some_iff.1 h
    exact Option.map_eq_some_iff.2 ⟨c, findPoint_more hc hle, rfl⟩

theorem allocLoop_more {size units n m : ℕ} : ∀ {k : Slob} {answers : List (Option ℕ)}
    {prev cur : ℕ} {r : ℕ × Slob}, allocLoop size units n k answers prev cur = some r → n ≤ m →
    allocLoop size units m k answers prev cur = some r := by
  induction n generalizing m with
  | zero => exact fun h _ => by cases h
  | succ n ih =>
    intro k answers prev cur r h hle
    obtain ⟨m, rfl⟩ := Nat.exists_eq_add_of_le' (Nat.one_le_of_lt hle)
    have hle := Nat.le_of_succ_le_succ hle
    unfold allocLoop at h ⊢
    split
    · rwa [if_pos ‹_›] at h
    · rw [if_neg ‹_›] at h
      split
      · rw [if_pos ‹_›] at h
        split
        · rwa [if_pos ‹_›] at h
        · rw [if_neg ‹_›] at h
          match answers, h with
          | some page :: answers, h =>
            obtain ⟨k', hk', hr⟩ := Option.bind_eq_some_iff.1 h
            exact Option.bind_eq_some_iff.2 ⟨k', slobFree_more hk' hle, ih hr hle⟩
          | [], h => exact h
          | none :: _, h => exact h
      · rw [if_neg ‹_›] at h
        exact ih h hle

theorem slobAlloc_more {size n m : ℕ} {answers : List (Option ℕ)} {r : ℕ × Slob}
    (h : k.slobAlloc n size answers = some r) (hle : n ≤ m) :
    k.slobAlloc m size answers = some r := by
  unfold slobAlloc at h ⊢
  split
  · rw [if_pos ‹_›] at h
    exact allocLoop_more h hle
  · rwa [if_neg ‹_›] at h

end Slob

end Ucore
