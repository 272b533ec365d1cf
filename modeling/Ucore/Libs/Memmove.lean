/-
  `memmove` of `libs/string.c`, the portable branch.

  Pointers and `size_t` have 64 bits, and pointer arithmetic wraps around.  A pointer one behind
  the last byte of memory is 0.

  * `copyUp_eq`, `copyDown_eq`: a loop copies the bytes that were there before it, if it runs away
    from the bytes it still has to read;
  * `memmove_eq`: the direction is chosen so, and `memmove` is `Bytes.copy`;
  * `memmove_overlap`: the bytes at `dst`, and beside them.
-/
import Ucore.Lib.Bytes
import Mathlib.Data.BitVec

namespace Ucore

/-- `*d++ = *s++`, `n` times. -/
def copyUp : ℕ → BitVec 64 → BitVec 64 → Bytes → Bytes
  | 0, _, _, m => m
  | n + 1, d, s, m => copyUp n (d + 1) (s + 1) (Function.update m d.toNat (m s.toNat))

/-- `*--d = *--s`, `n` times. -/
def copyDown : ℕ → BitVec 64 → BitVec 64 → Bytes → Bytes
  | 0, _, _, m => m
  | n + 1, d, s, m =>
    let d := d - 1
    let s := s - 1
    copyDown n d s (Function.update m d.toNat (m s.toNat))

/-- The memory after `memmove(dst, src, n)`, and its result. -/
def memmove (m : Bytes) (dst src n : BitVec 64) : Bytes × BitVec 64 :=
  if src < dst ∧ dst < src + n then (copyDown n.toNat (dst + n) (src + n) m, dst)
  else (copyUp n.toNat dst src m, dst)

variable {m : Bytes} {a b n : ℕ}

/-! ## The loops -/

theorem update_eq_copy (m : Bytes) (a b : ℕ) :
    Function.update m a (m b) = m.copy a (m.from' b) 1 := by
  funext j
  by_cases hj : j = a
  · subst hj; simp [Bytes.copy_of_mem, Bytes.from']
  · rw [Function.update_of_ne hj, Bytes.copy_of_not_mem (by omega)]

theorem toNat_ofNat {a : ℕ} (h : a < 2 ^ 64) : (BitVec.ofNat 64 a).toNat = a := by
  rw [BitVec.toNat_ofNat, Nat.mod_eq_of_lt h]

theorem ofNat_succ (a : ℕ) : BitVec.ofNat 64 a + 1 = BitVec.ofNat 64 (a + 1) :=
  (BitVec.ofNat_add a 1).symm

theorem ofNat_pred (a : ℕ) : BitVec.ofNat 64 (a + 1) - 1 = BitVec.ofNat 64 a := by
  rw [← ofNat_succ]
  exact BitVec.add_sub_cancel _ _

/-- **Upwards**, to lower addresses or beside the source. -/
theorem copyUp_eq : ∀ {n a b : ℕ} {m : Bytes}, a + n ≤ 2 ^ 64 → b + n ≤ 2 ^ 64 →
    a ≤ b ∨ b + n ≤ a →
      copyUp n (BitVec.ofNat 64 a) (BitVec.ofNat 64 b) m = m.copy a (m.from' b) n
  | 0, a, b, m, _, _, _ => (Bytes.copy_zero m a _).symm
  | n + 1, a, b, m, ha, hb, h => by
    have hrest := copyUp_eq (n := n) (a := a + 1) (b := b + 1)
      (m := m.copy a (m.from' b) 1) (by omega) (by omega) (by omega)
    have hread : ∀ j < n, m.from' b (1 + j) = (m.copy a (m.from' b) 1).from' (b + 1) j :=
      fun j hj => by
        rw [Bytes.from', Bytes.from', Bytes.copy_of_not_mem (by omega), Nat.add_assoc]
    rw [copyUp, toNat_ofNat (by omega), toNat_ofNat (by omega), update_eq_copy, ofNat_succ,
      ofNat_succ, hrest,
      Bytes.copy_copy (fun _ _ => rfl) hread, Nat.add_comm 1 n]

/-- **Downwards**, to higher addresses or beside the source. -/
theorem copyDown_eq : ∀ {n a b : ℕ} {m : Bytes}, a + n ≤ 2 ^ 64 → b + n ≤ 2 ^ 64 →
    b ≤ a ∨ a + n ≤ b →
      copyDown n (BitVec.ofNat 64 (a + n)) (BitVec.ofNat 64 (b + n)) m = m.copy a (m.from' b) n
  | 0, a, b, m, _, _, _ => (Bytes.copy_zero m a _).symm
  | n + 1, a, b, m, ha, hb, h => by
    have hrest := copyDown_eq (n := n) (a := a) (b := b)
      (m := m.copy (a + n) (m.from' (b + n)) 1) (by omega) (by omega) (by omega)
    have hread : ∀ j < n, m.from' b j = (m.copy (a + n) (m.from' (b + n)) 1).from' b j :=
      fun j hj => by rw [Bytes.from', Bytes.from', Bytes.copy_of_not_mem (by omega)]
    have hlast : ∀ j < 1, m.from' b (n + j) = m.from' (b + n) j := fun j _ => by
      rw [Bytes.from', Bytes.from', Nat.add_assoc]
    rw [copyDown, ← Nat.add_assoc, ← Nat.add_assoc, ofNat_pred, ofNat_pred,
      toNat_ofNat (by omega), toNat_ofNat (by omega), update_eq_copy, hrest,
      ← Bytes.copy_comm (by omega), Bytes.copy_copy hread hlast]

/-! ## The move -/

/-- **`memmove`** copies the bytes that were at `b`. -/
theorem memmove_eq (ha : a + n ≤ 2 ^ 64) (hb : b + n ≤ 2 ^ 64) (hn : n < 2 ^ 64)
    (ha' : a < 2 ^ 64) (hb' : b < 2 ^ 64) :
    memmove m (BitVec.ofNat 64 a) (BitVec.ofNat 64 b) (BitVec.ofNat 64 n) =
      (m.copy a (m.from' b) n, BitVec.ofNat 64 a) := by
  have hlow : BitVec.ofNat 64 b < BitVec.ofNat 64 a ↔ b < a := by
    rw [BitVec.lt_def, toNat_ofNat ha', toNat_ofNat hb']
  -- a source below the destination ends before it, so its end does not wrap around
  have hin : b < a → (BitVec.ofNat 64 a < BitVec.ofNat 64 (b + n) ↔ a < b + n) := fun h => by
    rw [BitVec.lt_def, toNat_ofNat ha', toNat_ofNat (by omega)]
  unfold memmove
  rw [toNat_ofNat hn, ← BitVec.ofNat_add, ← BitVec.ofNat_add]
  split_ifs with hc
  · rw [copyDown_eq ha hb (Or.inl (hlow.1 hc.1).le)]
  · have hap : a ≤ b ∨ b + n ≤ a := by
      by_contra hne
      push Not at hne
      exact hc ⟨hlow.2 hne.1, (hin hne.1).2 hne.2⟩
    rw [copyUp_eq ha hb hap]

/-- **`memmove` of ranges that may overlap.** It returns `dst`; the `n` bytes at `dst` are those
    that were at `src`, and the others are unchanged. -/
theorem memmove_overlap (m : Bytes) (dst src n : BitVec 64) (hd : dst.toNat + n.toNat ≤ 2 ^ 64)
    (hs : src.toNat + n.toNat ≤ 2 ^ 64) :
    (memmove m dst src n).2 = dst ∧
    (∀ i < n.toNat, (memmove m dst src n).1 (dst.toNat + i) = m (src.toNat + i)) ∧
    ∀ a, a < dst.toNat ∨ dst.toNat + n.toNat ≤ a → (memmove m dst src n).1 a = m a := by
  have hmove := memmove_eq (m := m) hd hs n.isLt dst.isLt src.isLt
  simp only [BitVec.ofNat_toNat, BitVec.setWidth_eq] at hmove
  rw [hmove]
  refine ⟨rfl, fun i hi => ?_, fun a ha => Bytes.copy_of_not_mem ha⟩
  have hin : m.copy dst.toNat (m.from' src.toNat) n.toNat (dst.toNat + i) =
      m.from' src.toNat (dst.toNat + i - dst.toNat) := Bytes.copy_of_mem (by omega) (by omega)
  rwa [Nat.add_sub_cancel_left] at hin

/-- Three bytes, one place up over themselves. -/
theorem memmove_overlap_up : (∀ i < 3, (memmove (fun a => UInt8.ofNat a) 11 10 3).1 (11 + i) =
    UInt8.ofNat (10 + i)) ∧ (memmove (fun a => UInt8.ofNat a) 11 10 3).1 14 = 14 := by
  obtain ⟨-, h1, h2⟩ := memmove_overlap (fun a => UInt8.ofNat a) 11 10 3 (by decide) (by decide)
  exact ⟨h1, h2 14 (Or.inr (by decide))⟩

end Ucore
