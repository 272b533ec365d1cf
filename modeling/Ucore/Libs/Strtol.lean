/-
  `strchr` and `strtol` of `libs/string.c`.

  A string is the list of its characters before the NUL, and a pointer into it what is left of it
  there; what is read behind its end is the NUL.  `val` is a `long` that wraps.

  * `Numeral`: what the comment of `strtol` says is read;
  * `strtol_iff`: it is read, unless there is a prefix `0X`.
-/
import Mathlib.Data.BitVec
import Mathlib.Data.List.Basic
import Mathlib.Data.UInt

namespace Ucore

/-! ## The code -/

def strchr : List UInt8 → UInt8 → Option (List UInt8)
  | [], _ => none
  | a :: s, c => if a = c then some (a :: s) else strchr s c

theorem strchr_isSome {c : UInt8} : ∀ {s : List UInt8}, (strchr s c).isSome = true ↔ c ∈ s
  | [] => by simp [strchr]
  | a :: s => by
    rw [strchr, List.mem_cons, ← strchr_isSome (s := s)]
    split
    · next h => simp [h]
    · next h => simp [Ne.symm h]

def isBlank (c : UInt8) : Bool := c = 32 ∨ c = 9

/-- The sign: whether there is a minus, and what follows. -/
def strtolSign : List UInt8 → Bool × List UInt8
  | 43 :: s => (false, s)
  | 45 :: s => (true, s)
  | s => (false, s)

/-- The prefix: the base, and what follows. -/
def strtolPrefix (s : List UInt8) (base : ℕ) : ℕ × List UInt8 :=
  if (base = 0 ∨ base = 16) ∧ s[0]? = some 48 ∧ s[1]? = some 120 then (16, s.drop 2)
  else if base = 0 ∧ s[0]? = some 48 then (8, s.drop 1)
  else if base = 0 then (10, s)
  else (base, s)

/-- `dig`, if the character is a digit or a letter. -/
def digit? (c : UInt8) : Option ℕ :=
  if 48 ≤ c ∧ c ≤ 57 then some (c.toNat - 48)
  else if 97 ≤ c ∧ c ≤ 122 then some (c.toNat - 97 + 10)
  else if 65 ≤ c ∧ c ≤ 90 then some (c.toNat - 65 + 10)
  else none

/-- The loop over the digits. -/
def strtolDigits (base : ℕ) : List UInt8 → BitVec 64 → BitVec 64 × List UInt8
  | [], val => (val, [])
  | c :: s, val =>
    match digit? c with
    | none => (val, c :: s)
    | some dig =>
      if base ≤ dig then (val, c :: s)
      else strtolDigits base s (val * BitVec.ofNat 64 base + BitVec.ofNat 64 dig)

/-- `strtol`: the value, and `*endptr`. -/
def strtol (s : List UInt8) (base : ℕ) : BitVec 64 × List UInt8 :=
  let (neg, s) := strtolSign (s.dropWhile isBlank)
  let (base, s) := strtolPrefix s base
  let (val, s) := strtolDigits base s 0
  (if neg then -val else val, s)

/-! ## What is documented -/

/-- The value of a digit. -/
def digitVal (c : UInt8) : ℕ := (digit? c).getD 0

/-- The character is a digit in the base. -/
def IsDigit (base : ℕ) (c : UInt8) : Bool := (digit? c).any (· < base)

/-- The number that digits stand for, behind those for `v`. -/
def numeral (base v : ℕ) (digits : List UInt8) : ℕ :=
  digits.foldl (fun v c => v * base + digitVal c) v

/-- The text is read with a prefix: `0x` or `0X` for base 16; for base 0, `0x` for 16, `0` for 8,
    and none for 10. -/
def readPrefix (base : ℕ) (s : List UInt8) : ℕ × List UInt8 :=
  match base, s with
  | 16, 48 :: 120 :: s => (16, s)
  | 16, 48 :: 88 :: s => (16, s)
  | 0, 48 :: 120 :: s => (16, s)
  | 0, 48 :: s => (8, s)
  | 0, s => (10, s)
  | base, s => (base, s)

/-- The numeral at the start of a text: blanks, a sign, a prefix, and the longest run of digits. -/
def readNumeral (base : ℕ) (s : List UInt8) : BitVec 64 × List UInt8 :=
  let (neg, s) := strtolSign (s.dropWhile isBlank)
  let (base, s) := readPrefix base s
  let v := BitVec.ofNat 64 (numeral base 0 (s.takeWhile (IsDigit base)))
  (if neg then -v else v, s.dropWhile (IsDigit base))

variable {base v : ℕ} {s : List UInt8} {c : UInt8}

/-! ## Digits -/

/-- **The loop** reads the longest run of digits. -/
theorem strtolDigits_eq (base : ℕ) : ∀ (s : List UInt8) (v : ℕ),
    strtolDigits base s (BitVec.ofNat 64 v) =
      (BitVec.ofNat 64 (numeral base v (s.takeWhile (IsDigit base))), s.dropWhile (IsDigit base))
  | [], v => rfl
  | c :: s, v => by
    rw [strtolDigits]
    cases hd : digit? c with
    | none =>
      have hn : ¬IsDigit base c = true := by simp [IsDigit, hd]
      rw [List.takeWhile_cons_of_neg hn, List.dropWhile_cons_of_neg hn]
      rfl
    | some dig =>
      dsimp only
      by_cases hb : base ≤ dig
      · have hn : ¬IsDigit base c = true := by simp [IsDigit, hd, hb]
        rw [if_pos hb, List.takeWhile_cons_of_neg hn, List.dropWhile_cons_of_neg hn]
        rfl
      · have hp : IsDigit base c = true := by simpa [IsDigit, hd] using hb
        rw [if_neg hb, List.takeWhile_cons_of_pos hp, List.dropWhile_cons_of_pos hp,
          ← BitVec.ofNat_mul, ← BitVec.ofNat_add, strtolDigits_eq base s]
        simp only [numeral, List.foldl_cons, digitVal, hd, Option.getD_some]

/-! ## The prefix -/

theorem starts_one {a : UInt8} (h : s[0]? = some a) : ∃ t, s = a :: t := by
  cases s with
  | nil => cases h
  | cons x t => exact ⟨t, by rw [Option.some.inj h]⟩

theorem starts_two {a b : UInt8} (h : s[0]? = some a) (h' : s[1]? = some b) :
    ∃ t, s = a :: b :: t := by
  obtain ⟨t, rfl⟩ := starts_one h
  obtain ⟨t, rfl⟩ := starts_one h'
  exact ⟨t, rfl⟩

/-- The prefixes are those that are documented, but for `0X`. -/
theorem strtolPrefix_eq (h : ¬(base = 16 ∧ ∃ t, s = 48 :: 88 :: t)) :
    strtolPrefix s base = readPrefix base s := by
  unfold readPrefix
  split
  · simp [strtolPrefix]
  · exact absurd ⟨rfl, _, rfl⟩ h
  · simp [strtolPrefix]
  · rename_i hx
    have hnot : ¬((48 : UInt8) :: _)[1]? = some 120 := fun h' => by
      obtain ⟨t, ht⟩ := starts_two rfl h'
      exact hx t (List.cons.inj ht).2
    rw [strtolPrefix, if_neg fun h => hnot h.2.2, if_pos ⟨rfl, rfl⟩]
    rfl
  · rename_i h0
    have hnot : ¬s[0]? = some 48 := fun h' => by
      obtain ⟨t, ht⟩ := starts_one h'
      exact h0 t ht
    rw [strtolPrefix, if_neg fun h => hnot h.2.1, if_neg fun h => hnot h.2, if_pos rfl]
  · rename_i hb hx _ _ _
    have h0 : base ≠ 0 := hb
    have hnot : ¬((base = 0 ∨ base = 16) ∧ s[0]? = some 48 ∧ s[1]? = some 120) := fun h' => by
      obtain ⟨t, ht⟩ := starts_two h'.2.1 h'.2.2
      exact hx t (h'.1.resolve_left h0) ht
    rw [strtolPrefix, if_neg hnot, if_neg fun h => h0 h.1, if_neg h0]

/-! ## The function -/

/-- A prefix `0X` is read as the number 0. -/
theorem strtolDigits_zeroX (t : List UInt8) :
    strtolDigits 16 (48 :: 88 :: t) 0 = (0, 88 :: t) := rfl

/-- **`strtol`** reads the numeral that is documented, unless it is to read a hexadecimal number,
and the prefix is `0X`. -/
theorem strtol_iff (base : ℕ) (s : List UInt8) : strtol s base = readNumeral base s ↔
    ¬(base = 16 ∧ ∃ t, (strtolSign (s.dropWhile isBlank)).2 = 48 :: 88 :: t) := by
  obtain ⟨⟨neg, u⟩, hu⟩ : ∃ r, strtolSign (s.dropWhile isBlank) = r := ⟨_, rfl⟩
  rw [hu]
  constructor
  · rintro h ⟨rfl, t, ht⟩
    obtain rfl : u = 48 :: 88 :: t := ht
    have hrest := congrArg (fun r => r.2.length) h
    have hle := (List.dropWhile_suffix (IsDigit 16) (l := t)).length_le
    simp only [strtol, readNumeral, hu, readPrefix] at hrest
    have hcode : (strtolPrefix (48 :: 88 :: t) 16) = (16, 48 :: 88 :: t) := by simp [strtolPrefix]
    rw [hcode] at hrest
    simp only [strtolDigits_zeroX, List.length_cons] at hrest
    omega
  · intro h
    have hp : strtolPrefix u base = readPrefix base u := strtolPrefix_eq h
    have hd := strtolDigits_eq (readPrefix base u).1 (readPrefix base u).2 0
    have h0 : BitVec.ofNat 64 0 = 0 := rfl
    rw [h0] at hd
    simp only [strtol, readNumeral, hu, hp, hd]

/-- `0X1F` is read as 0, up to the `X`. -/
theorem strtol_upper : strtol [48, 88, 49, 70] 16 = (0, [88, 49, 70]) ∧
    readNumeral 16 [48, 88, 49, 70] = (31, []) ∧
    strtol [48, 88, 49, 70] 16 ≠ readNumeral 16 [48, 88, 49, 70] := by decide

end Ucore
