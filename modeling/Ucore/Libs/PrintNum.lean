/-
  `printnum` of `libs/printfmt.c`, and `strtol`, which reads what it prints.

  * `representation`: the digits of a number;
  * `printnum_emit`: what is put; the width is an `int` that is decremented for every digit;
  * `strtol_representation`: the digits are read back;
  * `printnum_iff`: the padding is right, unless the width wraps.
-/
import Mathlib.Data.List.TakeWhile
import Mathlib.Data.Nat.Digits.Defs
import Ucore.Libs.Printfmt
import Ucore.Libs.Strtol

namespace Ucore

/-! ## Digits -/

/-- The digits of a number in a base, from the greatest weight to the least; 0 has one. -/
def representation (base num : ℕ) : List UInt8 :=
  if num = 0 then [48] else (Nat.digits base num).reverse.map digitChar

variable {base num n : ℕ}

theorem representation_of_lt (h : num < base) : representation base num = [digitChar num] := by
  unfold representation
  split
  · next h0 =>
    subst h0
    rfl
  · next h0 =>
    rw [Nat.digits_of_lt base num h0 h]
    rfl

theorem representation_of_le (hb : 2 ≤ base) (h : base ≤ num) :
    representation base num = representation base (num / base) ++ [digitChar (num % base)] := by
  have hnum : num ≠ 0 := by omega
  have hdiv : num / base ≠ 0 := Nat.div_ne_zero_iff.2 ⟨by omega, h⟩
  rw [representation, if_neg hnum, representation, if_neg hdiv,
    Nat.digits_eq_cons_digits_div hb hnum, List.reverse_cons, List.map_append]
  rfl

/-- An induction over the digits. -/
theorem representation_induction (hb : 2 ≤ base) {P : ℕ → Prop} (hlt : ∀ num < base, P num)
    (hle : ∀ num, base ≤ num → P (num / base) → P num) (num : ℕ) : P num := by
  induction num using Nat.strong_induction_on with
  | h num ih =>
    obtain h | h := Nat.lt_or_ge num base
    · exact hlt num h
    · exact hle num h (ih _ (Nat.div_lt_self (by omega) hb))

theorem mem_representation (hb : 2 ≤ base) (num : ℕ) :
    ∀ c ∈ representation base num, ∃ d < base, c = digitChar d := by
  induction num using representation_induction hb with
  | hlt num h =>
    intro c hc
    rw [representation_of_lt h] at hc
    exact ⟨num, h, List.mem_singleton.1 hc⟩
  | hle num h ih =>
    intro c hc
    rw [representation_of_le hb h] at hc
    obtain hc | hc := List.mem_append.1 hc
    · exact ih c hc
    · exact ⟨num % base, Nat.mod_lt _ (by omega), List.mem_singleton.1 hc⟩

theorem representation_ne_nil (hb : 2 ≤ base) (num : ℕ) : representation base num ≠ [] := by
  obtain h | h := Nat.lt_or_ge num base
  · rw [representation_of_lt h]
    exact List.cons_ne_nil _ _
  · rw [representation_of_le hb h]
    exact List.append_ne_nil_of_right_ne_nil _ (List.cons_ne_nil _ _)

theorem length_representation_le (hb : 2 ≤ base) (num : ℕ) : ∀ n, num < base ^ (n + 1) →
    (representation base num).length ≤ n + 1 := by
  induction num using representation_induction hb with
  | hlt num h =>
    intro n _
    rw [representation_of_lt h]
    exact Nat.succ_le_succ (Nat.zero_le n)
  | hle num h ih =>
    intro n hn
    rw [representation_of_le hb h, List.length_append, List.length_singleton]
    cases n with
    | zero => exact absurd hn (by rw [zero_add, pow_one]; omega)
    | succ n =>
      have hdiv : num / base < base ^ (n + 1) := by
        rw [Nat.div_lt_iff_lt_mul (by omega), ← pow_succ]
        exact hn
      exact Nat.succ_le_succ (ih n hdiv)

/-- The first digit is not 0. -/
theorem head_representation (hb : 2 ≤ base) (hb' : base ≤ 16) (num : ℕ) :
    num ≠ 0 → (representation base num).head? ≠ some 48 := by
  induction num using representation_induction hb with
  | hlt num h =>
    intro h0 hc
    have hdigit : ∀ d < 16, d ≠ 0 → digitChar d ≠ 48 := by decide
    rw [representation_of_lt h] at hc
    exact hdigit num (by omega) h0 (Option.some.inj hc)
  | hle num h ih =>
    intro _ hc
    have hdiv : num / base ≠ 0 := Nat.div_ne_zero_iff.2 ⟨by omega, h⟩
    rw [representation_of_le hb h,
      List.head?_append_of_ne_nil _ (representation_ne_nil hb _)] at hc
    exact ih hdiv hc

/-! ## `printnum` -/

theorem putLoop_emit (c : UInt8) : ∀ (n : ℕ) (text : List UInt8),
    putLoop emit c n text = text ++ List.replicate n c
  | 0, text => (List.append_nil text).symm
  | n + 1, text => by
    rw [putLoop, putLoop_emit c n, emit, List.append_assoc, List.replicate_succ]
    rfl

theorem printnumLoop_emit (hb : 2 ≤ base) (padc : UInt8) (num : ℕ) : ∀ (n : ℕ) (width : BitVec 32)
    (text : List UInt8), num < base ^ (n + 1) →
      printnumLoop emit base padc (n + 1) num width text = text ++
        (List.replicate
            (width - BitVec.ofNat 32 (representation base num).length).toInt.toNat padc ++
          representation base num) := by
  induction num using representation_induction hb with
  | hlt num h =>
    intro n width text _
    rw [printnumLoop, if_neg (by omega), putLoop_emit, emit, representation_of_lt h,
      Nat.mod_eq_of_lt h, List.append_assoc]
    rfl
  | hle num h ih =>
    intro n width text hn
    cases n with
    | zero => exact absurd hn (by rw [zero_add, pow_one]; omega)
    | succ n =>
      have hdiv : num / base < base ^ (n + 1) := by
        rw [Nat.div_lt_iff_lt_mul (by omega), ← pow_succ]
        exact hn
      have hwidth : width - 1 - BitVec.ofNat 32 (representation base (num / base)).length =
          width - BitVec.ofNat 32 (representation base num).length := by
        rw [representation_of_le hb h, List.length_append, List.length_singleton, BitVec.ofNat_add,
          BitVec.sub_sub, BitVec.add_comm]
        rfl
      rw [printnumLoop, if_pos h, ih n _ _ hdiv, hwidth, emit]
      rw [representation_of_le hb h]
      simp only [List.append_assoc]

/-- What `printnum` puts. -/
theorem printnum_emit (hb : 2 ≤ base) (num : BitVec 64) (width : BitVec 32) (padc : UInt8)
    (text : List UInt8) : printnum emit num base width padc text = text ++
      (List.replicate
          (width - BitVec.ofNat 32 (representation base num.toNat).length).toInt.toNat padc ++
        representation base num.toNat) :=
  printnumLoop_emit hb padc _ 63 width text (num.isLt.trans_le (Nat.pow_le_pow_left hb 64))

theorem length_representation (hb : 2 ≤ base) (num : BitVec 64) :
    (representation base num.toNat).length ≤ 64 :=
  length_representation_le hb _ 63 (num.isLt.trans_le (Nat.pow_le_pow_left hb 64))

/-- The padding is what the width asks for, unless the width wraps. -/
theorem padding_iff {width : BitVec 32} (hn : n ≤ 64) :
    (width - BitVec.ofNat 32 n).toInt.toNat = (width.toInt - n).toNat ↔
      -2 ^ 31 + n ≤ width.toInt := by
  have hlt := BitVec.toInt_lt (x := width)
  have hle := BitVec.le_toInt width
  have hwidth : (width - BitVec.ofNat 32 n).toInt = (width.toInt - n).bmod (2 ^ 32) := by
    have hnat : (BitVec.ofNat 32 n).toInt = n := by
      rw [BitVec.toInt_ofNat', Int.bmod_def]
      omega
    rw [BitVec.toInt_sub, hnat]
  rw [hwidth, Int.bmod_def]
  omega

/-! ## Reading back -/

theorem digit?_digitChar : ∀ d < 16, digit? (digitChar d) = some d := by decide

theorem isDigit_digitChar (hb' : base ≤ 16) {d : ℕ} (hd : d < base) :
    IsDigit base (digitChar d) = true := by
  rw [IsDigit, digit?_digitChar d (by omega)]
  exact decide_eq_true hd

theorem numeral_snoc (v : ℕ) (digits : List UInt8) (c : UInt8) :
    numeral base v (digits ++ [c]) = numeral base v digits * base + digitVal c := by
  rw [numeral, List.foldl_append]
  rfl

theorem digitVal_digitChar {d : ℕ} (hd : d < 16) : digitVal (digitChar d) = d := by
  rw [digitVal, digit?_digitChar d hd]
  rfl

/-- The digits stand for the number. -/
theorem numeral_representation (hb : 2 ≤ base) (hb' : base ≤ 16) (num : ℕ) :
    numeral base 0 (representation base num) = num := by
  induction num using representation_induction hb with
  | hlt num h =>
    rw [representation_of_lt h]
    simp [numeral, digitVal_digitChar (h.trans_le hb')]
  | hle num h ih =>
    have hmod : num % base < 16 := (Nat.mod_lt _ (by omega)).trans_le hb'
    rw [representation_of_le hb h, numeral_snoc, ih, digitVal_digitChar hmod, Nat.mul_comm,
      Nat.div_add_mod]

theorem strtolDigits_representation (hb : 2 ≤ base) (hb' : base ≤ 16) (num : ℕ) :
    strtolDigits base (representation base num) 0 = (BitVec.ofNat 64 num, []) := by
  have hall : ∀ c ∈ representation base num, IsDigit base c = true := fun c hc => by
    obtain ⟨d, hd, rfl⟩ := mem_representation hb num c hc
    exact isDigit_digitChar hb' hd
  have h0 : (0 : BitVec 64) = BitVec.ofNat 64 0 := rfl
  rw [h0, strtolDigits_eq, List.takeWhile_eq_self_iff.2 hall, List.dropWhile_eq_nil_iff.2 hall,
    numeral_representation hb hb']

/-- There is no prefix. -/
theorem strtolPrefix_representation (hb : 2 ≤ base) (hb' : base ≤ 16) (num : ℕ) :
    strtolPrefix (representation base num) base = (base, representation base num) := by
  have hx : (representation base num)[1]? ≠ some 120 := fun h => by
    have hdigit : ∀ d < 16, digitChar d ≠ 120 := by decide
    obtain ⟨d, hd, hc⟩ := mem_representation hb num 120 (List.mem_of_getElem? h)
    exact hdigit d (by omega) hc.symm
  have h0 : base ≠ 0 := by omega
  rw [strtolPrefix, if_neg fun h => hx h.2.2, if_neg fun h => h0 h.1, if_neg h0]

/-- **`strtol` reads what is printed**: digits, with a minus in front of them or not. -/
theorem strtol_representation (hb : 2 ≤ base) (hb' : base ≤ 16) (num : ℕ) :
    strtol (representation base num) base = (BitVec.ofNat 64 num, []) ∧
      strtol (45 :: representation base num) base = (-BitVec.ofNat 64 num, []) := by
  obtain ⟨c, t, ht⟩ := List.exists_cons_of_ne_nil (representation_ne_nil hb num)
  have hp := strtolPrefix_representation hb hb' num
  have hd := strtolDigits_representation hb hb' num
  obtain ⟨d, hdl, hc⟩ := mem_representation hb num c (by rw [ht]; exact List.mem_cons_self)
  have hdigit : ∀ d < 16, isBlank (digitChar d) = false ∧ digitChar d ≠ 43 ∧ digitChar d ≠ 45 := by
    decide
  obtain ⟨hblank, hplus, hminus⟩ := hdigit d (by omega)
  rw [← hc] at hblank hplus hminus
  have hsign : strtolSign (c :: t) = (false, c :: t) := by
    unfold strtolSign
    split
    · next h => exact absurd (List.cons.inj h).1 hplus
    · next h => exact absurd (List.cons.inj h).1 hminus
    · rfl
  rw [ht] at hp hd ⊢
  constructor
  · rw [strtol, List.dropWhile_cons_of_neg (by simp [hblank]), hsign]
    simp only [hp, hd]
    rfl
  · rw [strtol, List.dropWhile_cons_of_neg (by decide), strtolSign]
    simp only [hp, hd]
    rfl

/-! ## Formats -/

/-- What is put for `%ld`. -/
theorem vprintfmt_ld (ap : VaList) : vprintfmt emit (ascii "%ld") ap [] =
    some (if (ap 0).word.toInt < 0 then 45 :: representation 10 (-(ap 0).word).toNat
      else representation 10 (ap 0).word.toNat) := by
  have hpad : ∀ num : BitVec 64,
      (-1 - BitVec.ofNat 32 (representation 10 num.toNat).length : BitVec 32).toInt.toNat = 0 :=
    fun num => by
      have hlen := length_representation (by decide : 2 ≤ 10) num
      have hone : (-1 : BitVec 32).toInt = -1 := by decide
      rw [(padding_iff hlen).2 (by omega)]
      omega
  have hread : readEscape ⟨32, -1, -1, 0, false⟩ ap [108, 100] =
      (⟨32, -1, -1, 0 + 1, false⟩, ap, some .decimal, []) := by
    simp [readEscape, conversion?]
  rw [show ascii "%ld" = [37, 108, 100] from rfl, vprintfmt, vprintfmtLoop, if_neg (by decide),
    hread]
  dsimp only
  have hint : getint (ap 0) (0 + 1) = (ap 0).word := rfl
  rw [convert, hint]
  dsimp only
  rw [Option.bind_some, vprintfmtLoop, printnum_emit (by decide), printnum_emit (by decide), hpad,
    hpad]
  split
  · rfl
  · rfl

/-- **Numbers.**  `printnum` puts the digits of the number behind as many characters `padc` as the
width asks for, if and only if the width does not wrap when it is decremented for every digit.
`strtol` reads the digits back, and what is put for `%ld`. -/
theorem printnum_iff (hb : 2 ≤ base) (hb' : base ≤ 16) :
    (∀ (num : BitVec 64) (width : BitVec 32) (padc : UInt8),
      (num.toNat ≠ 0 → (representation base num.toNat).head? ≠ some 48) ∧
      (num.toNat < 2 ^ 63 → strtol (representation base num.toNat) base = (num, []) ∧
        num.toInt = num.toNat) ∧
      (printnum emit num base width padc [] =
          List.replicate (width.toInt - (representation base num.toNat).length).toNat padc ++
            representation base num.toNat ↔
        -2 ^ 31 + (representation base num.toNat).length ≤ width.toInt)) ∧
    ∀ ap : VaList, ∃ text, vprintfmt emit (ascii "%ld") ap [] = some text ∧
      strtol text 10 = ((ap 0).word, []) := by
  refine ⟨fun num width padc => ⟨head_representation hb hb' _, fun hnum => ⟨?_, ?_⟩, ?_⟩,
    fun ap => ⟨_, vprintfmt_ld ap, ?_⟩⟩
  · rw [(strtol_representation hb hb' num.toNat).1, BitVec.ofNat_toNat, BitVec.setWidth_eq]
  · rw [BitVec.toInt_eq_toNat_cond, if_pos (by omega)]
  · rw [printnum_emit hb, ← padding_iff (length_representation hb num), List.nil_append,
      List.append_left_inj]
    constructor
    · intro h
      simpa only [List.length_replicate] using congrArg List.length h
    · intro h
      rw [h]
  · split
    · rw [(strtol_representation (by decide) (by decide) _).2, BitVec.ofNat_toNat,
        BitVec.setWidth_eq, BitVec.neg_neg]
    · rw [(strtol_representation (by decide) (by decide) _).1, BitVec.ofNat_toNat,
        BitVec.setWidth_eq]

theorem printnum_iff_ten : 2 ≤ 10 ∧ 10 ≤ 16 ∧
    (printnum emit 7 10 3 32 [] =
        List.replicate
            ((3 : BitVec 32).toInt - (representation 10 (7 : BitVec 64).toNat).length).toNat 32 ++
          representation 10 (7 : BitVec 64).toNat ↔
      -2 ^ 31 + (representation 10 (7 : BitVec 64).toNat).length ≤ (3 : BitVec 32).toInt) :=
  ⟨by decide, by decide, ((printnum_iff (by decide) (by decide)).1 7 3 32).2.2⟩

/-- The width `-2^31`, which `%*d` can give, asks for no padding, and wraps. -/
theorem printnum_wraps :
    vprintfmt emit (ascii "%*d") (fun n => ⟨if n = 0 then 2 ^ 31 else 0, []⟩) [] =
        some (printnum emit 0 10 (BitVec.ofInt 32 (-2 ^ 31)) 32 []) ∧
      printnum emit 0 10 (BitVec.ofInt 32 (-2 ^ 31)) 32 [] =
        List.replicate (2 ^ 31 - 1) 32 ++ representation 10 0 ∧
      printnum emit 0 10 (BitVec.ofInt 32 (-2 ^ 31)) 32 [] ≠
        List.replicate
            ((BitVec.ofInt 32 (-2 ^ 31)).toInt - (representation 10 0).length).toNat 32 ++
          representation 10 0 := by
  have h0 : (0 : BitVec 64).toNat = 0 := rfl
  have hwrap : (BitVec.ofInt 32 (-2 ^ 31) -
      BitVec.ofNat 32 (representation 10 0).length).toInt.toNat = 2 ^ 31 - 1 := by decide
  have hput : printnum emit 0 10 (BitVec.ofInt 32 (-2 ^ 31)) 32 [] =
      List.replicate (2 ^ 31 - 1) 32 ++ representation 10 0 := by
    rw [printnum_emit (by decide), h0, hwrap, List.nil_append]
  refine ⟨?_, hput, fun h => ?_⟩
  · have hread : readEscape ⟨32, -1, -1, 0, false⟩ (fun n => ⟨if n = 0 then 2 ^ 31 else 0, []⟩)
        [42, 100] = (⟨32, BitVec.ofInt 32 (-2 ^ 31), -1, 0, false⟩, fun _ => ⟨0, []⟩,
          some .decimal, []) := by
      simp [readEscape, conversion?, Escape.processPrecision, VaArg.int]
      exact ⟨by decide, rfl⟩
    have hint : getint ⟨0, []⟩ 0 = 0 := rfl
    rw [show ascii "%*d" = [37, 42, 100] from rfl, vprintfmt, vprintfmtLoop, if_neg (by decide),
      hread]
    dsimp only
    rw [convert, hint]
    dsimp only
    rw [Option.bind_some, vprintfmtLoop, if_neg (by decide)]
  · have hzero : ((BitVec.ofInt 32 (-2 ^ 31)).toInt - (representation 10 0).length).toNat = 0 := by
      decide
    rw [hput, hzero, List.append_left_inj] at h
    have hlen := congrArg List.length h
    rw [List.length_replicate, List.length_replicate] at hlen
    exact absurd hlen (by decide)

end Ucore
