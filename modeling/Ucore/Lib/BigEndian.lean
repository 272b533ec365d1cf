/-
  Texts in memory, and big-endian numbers.

  * `Bytes.Holds`: a text lies at an address;
  * `bigEndian_toBig`: a number reads back as it was written;
  * `Bytes.word_eq_four`, `Bytes.word_eq_eight`: the bytes of a little-endian word.
-/
import Ucore.Lib.Bytes

namespace Bytes

variable {m : Bytes} {p : ℕ} {s t : List UInt8} {c : UInt8}

/-- The text `s` lies at `p`. -/
def Holds (m : Bytes) (p : ℕ) (s : List UInt8) : Prop := ∀ j c, s[j]? = some c → m (p + j) = c

theorem Holds.left (h : m.Holds p (s ++ t)) : m.Holds p s := fun j c hj => by
  refine h j c ?_
  rw [List.getElem?_append_left (List.getElem?_eq_some_iff.1 hj).1]
  exact hj

theorem Holds.right (h : m.Holds p (s ++ t)) : m.Holds (p + s.length) t := fun j c hj => by
  rw [Nat.add_assoc]
  refine h _ c ?_
  rw [List.getElem?_append_right (Nat.le_add_right _ _), Nat.add_sub_cancel_left]
  exact hj

theorem Holds.skip {n : ℕ} (h : m.Holds p (s ++ t)) (hn : s.length = n) : m.Holds (p + n) t :=
  hn ▸ h.right

theorem Holds.head (h : m.Holds p (c :: s)) : m p = c := h 0 c rfl

theorem Holds.tail (h : m.Holds p (c :: s)) : m.Holds (p + 1) s := h.right (s := [c])

theorem Holds.get (h : m.Holds p s) {j : ℕ} (hj : j < s.length) : m (p + j) = s[j] :=
  h j _ (List.getElem?_eq_getElem hj)

end Bytes

/-! ## Numbers -/

/-- The number that the bytes stand for, the first the one of greatest weight. -/
def bigEndian (s : List UInt8) : ℕ := s.foldl (fun n c => n * 256 + c.toNat) 0

/-- The last `w` bytes of `n`. -/
def toBig : ℕ → ℕ → List UInt8
  | 0, _ => []
  | w + 1, n => toBig w (n / 256) ++ [UInt8.ofNat n]

@[simp] theorem length_toBig : ∀ {w n : ℕ}, (toBig w n).length = w
  | 0, _ => rfl
  | w + 1, n => by rw [toBig, List.length_append, length_toBig, List.length_singleton]

theorem bigEndian_snoc (s : List UInt8) (c : UInt8) :
    bigEndian (s ++ [c]) = bigEndian s * 256 + c.toNat := by
  rw [bigEndian, List.foldl_append]
  rfl

theorem bigEndian_toBig : ∀ (w n : ℕ), bigEndian (toBig w n) = n % 256 ^ w
  | 0, n => by rw [pow_zero, Nat.mod_one]; rfl
  | w + 1, n => by
    rw [toBig, bigEndian_snoc, bigEndian_toBig w, UInt8.toNat_ofNat', pow_succ' 256 w, Nat.mod_mul]
    omega

/-! ## Words -/

namespace Bytes

variable {m : Bytes} {p : ℕ}

theorem word_eq_four (m : Bytes) (p : ℕ) : m.word 4 p = (m p).toNat + 256 * (m (p + 1)).toNat +
    65536 * (m (p + 2)).toNat + 16777216 * (m (p + 3)).toNat := by
  simp only [word, Nat.add_assoc, Nat.reduceAdd]
  omega

/-- A word of 8 bytes is two words. -/
theorem word_eq_eight (m : Bytes) (p : ℕ) :
    m.word 8 p = m.word 4 p + 2 ^ 32 * m.word 4 (p + 4) := by
  simp only [word, Nat.add_assoc, Nat.reduceAdd]
  omega

end Bytes
