/-
  Memory as bytes, with little-endian words and packed fields.

  * `word_copy`, `word_copy_of_disjoint`: a word inside, and beside, a copied range;
  * `word_ofWord`, `word_setWord`: a word reads back as it was written;
  * `ofWords64_toWords64`: an array of 64-bit words holds the bytes that it was made of;
  * `word_fields`: a field of a packed structure reads back as it was written;
  * `str`: the characters of a string.
-/
import Mathlib.Data.Nat.ModEq
import Mathlib.Tactic.Ring

/-- The bytes from some address on. -/
abbrev Bytes := ℕ → UInt8

namespace Bytes

/-! ## Copying -/

/-- `memcpy(dst + off, src, len)`. -/
def copy (dst : Bytes) (off : ℕ) (src : Bytes) (len : ℕ) : Bytes := fun j =>
  if off ≤ j ∧ j < off + len then src (j - off) else dst j

/-- The bytes at `m + off`. -/
def from' (m : Bytes) (off : ℕ) : Bytes := fun j => m (off + j)

variable {dst src m m' : Bytes} {off len j w o n : ℕ}

theorem copy_of_mem (h : off ≤ j) (h' : j < off + len) : copy dst off src len j = src (j - off) :=
  if_pos ⟨h, h'⟩

theorem copy_of_not_mem (h : j < off ∨ off + len ≤ j) : copy dst off src len j = dst j :=
  if_neg fun h' => h.elim (fun h => absurd h'.1 (by omega)) fun h => absurd h'.2 (by omega)

theorem copy_congr {src' : Bytes} (h : ∀ j < len, src j = src' j) :
    copy dst off src len = copy dst off src' len := by
  funext j
  by_cases hj : off ≤ j ∧ j < off + len
  · rw [copy_of_mem hj.1 hj.2, copy_of_mem hj.1 hj.2, h _ (by omega)]
  · rw [copy_of_not_mem (by omega), copy_of_not_mem (by omega)]

theorem copy_zero (m : Bytes) (off : ℕ) (src : Bytes) : m.copy off src 0 = m :=
  funext fun _ => copy_of_not_mem (by omega)

/-- Two copies one behind the other. -/
theorem copy_copy {src' src'' : Bytes} {k l : ℕ} (h : ∀ j < k, src'' j = src j)
    (h' : ∀ j < l, src'' (k + j) = src' j) :
    (m.copy off src k).copy (off + k) src' l = m.copy off src'' (k + l) := by
  funext j
  by_cases hj : off + k ≤ j ∧ j < off + k + l
  · rw [copy_of_mem hj.1 hj.2, copy_of_mem (by omega) (by omega), ← h' _ (by omega)]
    congr 1
    omega
  · rw [copy_of_not_mem (by omega)]
    by_cases hj' : off ≤ j ∧ j < off + k
    · rw [copy_of_mem hj'.1 hj'.2, copy_of_mem hj'.1 (by omega), h _ (by omega)]
    · rw [copy_of_not_mem (by omega), copy_of_not_mem (by omega)]

/-- Copies to places apart can be made in either order. -/
theorem copy_comm {src' : Bytes} (h : off + len ≤ o ∨ o + n ≤ off) :
    (m.copy off src len).copy o src' n = (m.copy o src' n).copy off src len := by
  funext j
  by_cases hj : o ≤ j ∧ j < o + n
  · rw [copy_of_mem hj.1 hj.2, copy_of_not_mem (by omega), copy_of_mem hj.1 hj.2]
  · rw [copy_of_not_mem (by omega)]
    by_cases hj' : off ≤ j ∧ j < off + len
    · rw [copy_of_mem hj'.1 hj'.2, copy_of_mem hj'.1 hj'.2]
    · rw [copy_of_not_mem (by omega), copy_of_not_mem (by omega), copy_of_not_mem (by omega)]

/-! ## Words -/

/-- The number in the `w` bytes at `off`, the lowest byte first. -/
def word : ℕ → Bytes → ℕ → ℕ
  | 0, _, _ => 0
  | w + 1, m, off => (m off).toNat + 256 * word w m (off + 1)

/-- The bytes of `n`, the lowest first. -/
def ofWord (n : ℕ) : Bytes := fun j => UInt8.ofNat (n / 256 ^ j)

theorem word_lt : ∀ (w : ℕ) (off : ℕ), word w m off < 256 ^ w
  | 0, _ => by simp [word]
  | w + 1, off => by
    have h : word w m (off + 1) < 256 ^ w := word_lt w _
    have h' := (m off).toNat_lt
    simp only [word, pow_succ]
    omega

/-- A word depends on its own bytes only. -/
theorem word_congr : ∀ {w o o' : ℕ}, (∀ j < w, m (o + j) = m' (o' + j)) → word w m o = word w m' o'
  | 0, _, _, _ => rfl
  | w + 1, o, o', h => by
    have h0 : m o = m' o' := h 0 (by omega)
    have ht : word w m (o + 1) = word w m' (o' + 1) := word_congr fun j hj => by
      have := h (j + 1) (by omega)
      rwa [show o + 1 + j = o + (j + 1) by omega, show o' + 1 + j = o' + (j + 1) by omega]
    simp only [word, h0, ht]

theorem word_from' : word w (from' m off) 0 = word w m off :=
  word_congr fun j _ => by rw [from', Nat.zero_add]

theorem word_copy (h : off ≤ o) (h' : o + w ≤ off + len) :
    word w (copy dst off src len) o = word w src (o - off) :=
  word_congr fun j hj => by
    rw [copy_of_mem (by omega) (by omega), show o + j - off = o - off + j by omega]

theorem word_copy_of_disjoint (h : o + w ≤ off ∨ off + len ≤ o) :
    word w (copy dst off src len) o = word w dst o :=
  word_congr fun j hj => copy_of_not_mem (by omega)

theorem word_zero : ∀ (w : ℕ) (off : ℕ), word w (fun _ => 0) off = 0
  | 0, _ => rfl
  | w + 1, off => by simp [word, word_zero w]

theorem word_ofWord_aux : ∀ (w k : ℕ), word w (ofWord n) k = n / 256 ^ k % 256 ^ w
  | 0, k => by simp [word, Nat.mod_one]
  | w + 1, k => by
    have h : (UInt8.ofNat (n / 256 ^ k)).toNat = n / 256 ^ k % 256 := by
      simp [UInt8.toNat_ofNat']
    simp only [word, ofWord, h]
    rw [word_ofWord_aux w (k + 1), pow_succ, ← Nat.div_div_eq_div_mul, pow_succ 256 w,
      Nat.mul_comm (256 ^ w) 256, Nat.mod_mul]

theorem word_ofWord (w n : ℕ) : word w (ofWord n) 0 = n % 256 ^ w := by
  rw [word_ofWord_aux, pow_zero, Nat.div_one]

/-! ## Writes -/

/-- Writes the `w` bytes of `n` at `off`. -/
def setWord (m : Bytes) (w off n : ℕ) : Bytes := m.copy off (ofWord n) w

/-- `memset(m + off, c, len)`. -/
def fill (m : Bytes) (off : ℕ) (c : UInt8) (len : ℕ) : Bytes := m.copy off (fun _ => c) len

theorem word_setWord : word w (setWord m w off n) off = n % 256 ^ w := by
  rw [setWord, word_copy (le_refl off) (le_refl _), Nat.sub_self, word_ofWord]

theorem word_setWord_of_disjoint {w' : ℕ} (h : o + w' ≤ off ∨ off + w ≤ o) :
    word w' (setWord m w off n) o = word w' m o := word_copy_of_disjoint h

theorem word_fill_of_disjoint {c : UInt8} (h : o + w ≤ off ∨ off + len ≤ o) :
    word w (fill m off c len) o = word w m o := word_copy_of_disjoint h

theorem setWord_of_not_mem (h : j < off ∨ off + w ≤ j) : setWord m w off n j = m j :=
  copy_of_not_mem h

/-! ## Arrays of words -/

/-- The bytes of an array of 32-bit words. -/
def ofWords (data : ℕ → BitVec 32) : Bytes := fun p => ofWord (data (p / 4)).toNat (p % 4)

theorem word_ofWords (data : ℕ → BitVec 32) (j : ℕ) :
    word 4 (ofWords data) (4 * j) = (data j).toNat := by
  have h : word 4 (ofWords data) (4 * j) = word 4 (ofWord (data j).toNat) 0 :=
    word_congr fun k hk => by
      rw [ofWords, show (4 * j + k) / 4 = j by omega, show (4 * j + k) % 4 = k by omega,
        Nat.zero_add]
  rw [h, word_ofWord]
  exact Nat.mod_eq_of_lt (data j).isLt

/-- The bytes of a word are those that it was read from. -/
theorem ofWord_word : ∀ (w off : ℕ) {j : ℕ}, j < w → ofWord (word w m off) j = m (off + j)
  | 0, _, _, h => absurd h (Nat.not_lt_zero _)
  | w + 1, off, 0, _ => by
    have h := (m off).toNat_lt
    have hmod : ((m off).toNat + 256 * word w m (off + 1)) % 256 = (m off).toNat := by omega
    rw [ofWord, pow_zero, Nat.div_one, word, Nat.add_zero]
    refine UInt8.toNat_inj.1 ?_
    rw [UInt8.toNat_ofNat']
    exact hmod
  | w + 1, off, j + 1, h => by
    have ih := ofWord_word w (off + 1) (Nat.lt_of_succ_lt_succ h)
    have hlt := (m off).toNat_lt
    have hdiv : ((m off).toNat + 256 * word w m (off + 1)) / 256 = word w m (off + 1) := by omega
    rw [show off + 1 + j = off + (j + 1) by omega] at ih
    rw [← ih, ofWord, ofWord, word, pow_succ, Nat.mul_comm (256 ^ j),
      ← Nat.div_div_eq_div_mul, hdiv]

/-- Bytes of equal words are equal. -/
theorem eq_of_word (h : word w m o = word w m' o) (hj : j < w) :
    m (o + j) = m' (o + j) := by
  rw [← ofWord_word (m := m) w o hj, h, ofWord_word w o hj]

/-- The bytes of an array of 64-bit words. -/
def ofWords64 (data : ℕ → BitVec 64) : Bytes := fun p => ofWord (data (p / 8)).toNat (p % 8)

/-- The bytes as an array of 64-bit words. -/
def toWords64 (m : Bytes) : ℕ → BitVec 64 := fun k => BitVec.ofNat 64 (word 8 m (8 * k))

@[simp] theorem ofWords64_toWords64 : ofWords64 (toWords64 m) = m := by
  funext p
  have hlt : word 8 m (8 * (p / 8)) < 2 ^ 64 := word_lt 8 _
  rw [ofWords64, toWords64, BitVec.toNat_ofNat, Nat.mod_eq_of_lt hlt,
    ofWord_word 8 _ (Nat.mod_lt p (by decide)), Nat.div_add_mod]

/-! ## Packed fields -/

/-- The number of bytes of some fields. -/
def width (fs : List (ℕ × ℕ)) : ℕ := (fs.map Prod.fst).sum

/-- Fields of given widths, one after the other. -/
def fields : List (ℕ × ℕ) → Bytes
  | [] => fun _ => 0
  | (w, v) :: fs => fun j => if j < w then ofWord v j else fields fs (j - w)

theorem word_fields_tail (v : ℕ) (fs : List (ℕ × ℕ)) :
    word w (fields ((n, v) :: fs)) (n + o) = word w (fields fs) o :=
  word_congr fun j _ => by
    simp only [fields]
    rw [if_neg (by omega), show n + o + j - n = o + j by omega]

/-- **A field reads back as it was written**, up to its width. -/
theorem word_fields (v : ℕ) (post : List (ℕ × ℕ)) : ∀ pre : List (ℕ × ℕ),
    word w (fields (pre ++ (w, v) :: post)) (width pre) = v % 256 ^ w
  | [] => by
    rw [List.nil_append, ← word_ofWord w v]
    refine word_congr fun j hj => ?_
    simp [fields, width, hj]
  | (n, u) :: pre => by
    rw [List.cons_append, show width ((n, u) :: pre) = n + width pre by simp [width],
      word_fields_tail, word_fields v post pre]

theorem width_append (fs gs : List (ℕ × ℕ)) : width (fs ++ gs) = width fs + width gs := by
  simp [width]

theorem width_array (w : ℕ) (l : List ℕ) : width (l.map fun v => (w, v)) = w * l.length := by
  induction l with
  | nil => rfl
  | cons v l ih =>
    simp only [width, List.map_cons, List.sum_cons, List.length_cons] at ih ⊢
    rw [ih, Nat.mul_succ, Nat.add_comm]

/-- An element of an array of fields. -/
theorem word_fields_array (l : List ℕ) (pre post : List (ℕ × ℕ)) {k : ℕ} (hk : k < l.length) :
    word w (fields (pre ++ l.map (fun v => (w, v)) ++ post)) (width pre + w * k) =
      l[k] % 256 ^ w := by
  have hl : l = l.take k ++ l[k] :: l.drop (k + 1) := by
    rw [List.getElem_cons_drop, List.take_append_drop]
  have hw : width (pre ++ (l.take k).map fun v => (w, v)) = width pre + w * k := by
    rw [width_append, width_array, List.length_take_of_le hk.le]
  have h := word_fields (w := w) l[k] ((l.drop (k + 1)).map (fun v => (w, v)) ++ post)
    (pre ++ (l.take k).map fun v => (w, v))
  rw [hw] at h
  rw [← h]
  conv_lhs => rw [hl]
  simp only [List.map_append, List.map_cons, List.append_assoc, List.cons_append]

/-! ## Strings -/

/-- The characters at `m` in front of the first NUL, `n` of them at most. -/
def str (m : Bytes) (n : ℕ) : List UInt8 := ((List.range n).map m).takeWhile (· ≠ 0)

theorem length_str_le (m : Bytes) (n : ℕ) : (str m n).length ≤ n := by
  have h := (List.takeWhile_sublist (l := (List.range n).map m) (· ≠ 0)).length_le
  rwa [List.length_map, List.length_range] at h

theorem str_congr (h : ∀ j < n, m j = m' j) : str m n = str m' n := by
  rw [str, str, List.map_congr_left fun j hj => h j (List.mem_range.1 hj)]

theorem getElem?_str {l : ℕ} {c : UInt8} (h : (m.str l)[j]? = some c) :
    m j = c := by
  have hpre : m.str l <+: (List.range l).map m := List.takeWhile_prefix _
  obtain ⟨rest, hrest⟩ := hpre
  have hj : j < (m.str l).length := (List.getElem?_eq_some_iff.1 h).1
  have hrest' : (m.str l ++ rest)[j]? = (m.str l)[j]? := List.getElem?_append_left hj
  rw [← hrest', hrest, List.getElem?_map] at h
  obtain ⟨j', hj', rfl⟩ := Option.map_eq_some_iff.1 h
  have hlt := (List.getElem?_eq_some_iff.1 hj').1
  rw [List.length_range] at hlt
  rw [List.getElem?_range hlt] at hj'
  cases hj'
  rfl

end Bytes
