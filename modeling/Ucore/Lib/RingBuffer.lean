/-
  Ring buffers with two positions that only grow.

  The cell of a position is its residue modulo the size `n`; the characters between the read
  position `r` and the write position `w` are the contents.

  * `contents_pop`: reading takes the oldest character;
  * `contents_push`: writing a cell that is not in use appends a character;
  * `contents_overwrite`: writing the next cell of a full buffer replaces the oldest character.

  The rest says what these do to the characters that have come out (`out`) and gone in (`inp`): as
  long as nothing is replaced they come out in order (`Sublist`), and each at most once (`Subperm`)
  whatever happens.
-/
import Mathlib.Data.List.Basic
import Mathlib.Data.List.Perm.Subperm
import Mathlib.Logic.Function.Basic

namespace RingBuffer

open Function

variable {C : Type*} {n r w : ℕ} {b : ℕ → C} {c : C}

/-- The characters at the positions from `r` up to `w`. -/
def contents (n : ℕ) (b : ℕ → C) (r w : ℕ) : List C :=
  (List.range (w - r)).map fun i => b ((r + i) % n)

@[simp] theorem length_contents : (contents n b r w).length = w - r := by simp [contents]

@[simp] theorem contents_empty : contents n b r r = [] := by simp [contents]

/-- The cells of two positions are different unless the positions are a multiple of `n` apart. -/
theorem mod_ne {i j : ℕ} (h : i < j) (hn : j < i + n) : i % n ≠ j % n := by
  intro he
  have hd : n ∣ j - i := Nat.dvd_of_mod_eq_zero (Nat.sub_mod_eq_zero_of_mod_eq he.symm)
  have := Nat.le_of_dvd (by omega) hd
  omega

theorem contents_pop (h : r < w) :
    contents n b r w = b (r % n) :: contents n b (r + 1) w := by
  have hw : w - r = (w - (r + 1)) + 1 := by omega
  simp only [contents, hw, List.range_succ_eq_map, List.map_cons, List.map_map, Nat.add_zero]
  congr 1
  refine List.map_congr_left fun i _ => ?_
  show b ((r + (i + 1)) % n) = b ((r + 1 + i) % n)
  rw [Nat.add_comm i 1, Nat.add_assoc]

/-- A cell that no position in between has can be written. -/
theorem contents_update {j : ℕ} (h : ∀ i, r ≤ i → i < w → i % n ≠ j) :
    contents n (update b j c) r w = contents n b r w := by
  refine List.map_congr_left fun i hi => ?_
  rw [List.mem_range] at hi
  rw [update_of_ne (h (r + i) (by omega) (by omega))]

theorem contents_push (h : r ≤ w) (hw : w < r + n) :
    contents n (update b (w % n) c) r (w + 1) = contents n b r w ++ [c] := by
  have hlen : w + 1 - r = (w - r) + 1 := by omega
  have hkeep : contents n (update b (w % n) c) r w = contents n b r w :=
    contents_update fun i h1 h2 => mod_ne h2 (by omega)
  rw [← hkeep]
  simp only [contents, hlen, List.range_succ, List.map_append, List.map_cons, List.map_nil]
  rw [Nat.add_sub_cancel' h, update_self]

theorem contents_overwrite (hn : 0 < n) :
    contents n (update b ((r + n) % n) c) r (r + n) = c :: contents n b (r + 1) (r + n) := by
  rw [contents_pop (by omega), Nat.add_mod_right, update_self]
  congr 1
  refine contents_update fun i h1 h2 => ?_
  exact (mod_ne (by omega) (by omega)).symm

/-! ## What comes out -/

variable {out q inp : List C} {o : C}

theorem Sublist.push (h : (out ++ q).Sublist inp) : (out ++ (q ++ [c])).Sublist (inp ++ [c]) := by
  rw [← List.append_assoc]
  exact h.append (.refl _)

theorem Sublist.drop (h : (out ++ q).Sublist inp) : (out ++ q).Sublist (inp ++ [c]) :=
  h.trans (List.sublist_append_left _ _)

theorem Subperm.push (h : (out ++ q).Subperm inp) : (out ++ (q ++ [c])).Subperm (inp ++ [c]) := by
  rw [← List.append_assoc]
  exact h.append (.refl _)

/-- Replacing a character that has not come out yet by the one that is dropped. -/
theorem Subperm.replace (h : (out ++ (o :: q)).Subperm inp) :
    (out ++ (c :: q)).Subperm (inp ++ [c]) := by
  have h1 : (out ++ q).Subperm inp :=
    (List.Sublist.append_left (List.sublist_cons_self o q) out).subperm.trans h
  have h2 : (out ++ q ++ [c]).Perm (out ++ (c :: q)) := by
    rw [List.append_assoc]
    exact (List.perm_append_singleton c q).append_left out
  exact h2.symm.subperm.trans (h1.append (.refl _))

end RingBuffer
