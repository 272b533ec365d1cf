/-
  `libs/printfmt.c`: `vprintfmt`, which hands the characters it makes to `putch`.

  `putch` works on a state of type `σ`.  A string is the list of its characters before the NUL; what
  is read behind its end is the NUL.  An `int` is a `BitVec 32`, and signed arithmetic wraps; a
  character is handed over as a byte.  `none` is a read behind `error_string`.

  * `printnum_hom`, `vprintfmt_hom`: the characters do not depend on what `putch` does with them;
  * `vprintfmt_eq_emit`: they are put one after the other.
-/
import Mathlib.Data.BitVec
import Mathlib.Data.List.Basic
import Mathlib.Data.UInt

namespace Ucore

/-! ## Arguments -/

/-- A variable argument takes a word; `text` is the string at this address. -/
structure VaArg where
  word : BitVec 64
  text : List UInt8

/-- A `va_list`: the words from where it points to. -/
abbrev VaList : Type := ℕ → VaArg

def VaList.next (ap : VaList) : VaList := fun n => ap (n + 1)

/-- `va_arg(ap, int)` -/
def VaArg.int (arg : VaArg) : BitVec 32 := arg.word.setWidth 32

def getuint (arg : VaArg) (lflag : BitVec 32) : BitVec 64 :=
  if 2 ≤ lflag.toInt then arg.word
  else if lflag ≠ 0 then arg.word
  else arg.int.setWidth 64

def getint (arg : VaArg) (lflag : BitVec 32) : BitVec 64 :=
  if 2 ≤ lflag.toInt then arg.word
  else if lflag ≠ 0 then arg.word
  else arg.int.signExtend 64

/-- The characters of a text. -/
def ascii (text : String) : List UInt8 := text.toList.map fun c => UInt8.ofNat c.toNat

def maxError : ℤ := 24

/-- `error_string` -/
def errorString : ℕ → Option (List UInt8)
  | 1 => ascii "unspecified error"
  | 2 => ascii "bad process"
  | 3 => ascii "invalid parameter"
  | 4 => ascii "out of memory"
  | 5 => ascii "out of processes"
  | 6 => ascii "segmentation fault"
  | 8 => ascii "invalid elf file"
  | 9 => ascii "process is killed"
  | 10 => ascii "panic failure"
  | 13 => ascii "no such device"
  | 14 => ascii "device not available"
  | 15 => ascii "device/file is busy"
  | 16 => ascii "no such file or directory"
  | 17 => ascii "is a directory"
  | 18 => ascii "not a directory"
  | 19 => ascii "cross device link"
  | 20 => ascii "unimplemented feature"
  | 21 => ascii "illegal seek"
  | 22 => ascii "too many files are open"
  | 23 => ascii "file or directory already exists"
  | 24 => ascii "directory is not empty"
  | _ => none

/-! ## Escapes -/

/-- The variables of `vprintfmt` that are set between `%` and the conversion. -/
structure Escape where
  padc : UInt8
  width : BitVec 32
  precision : BitVec 32
  lflag : BitVec 32
  altflag : Bool

inductive Conversion where
  | char
  | error
  | string
  | decimal
  | unsigned
  | octal
  | pointer
  | hexadecimal
  | percent

/-- The conversion of a character; `none` is one that is not recognized. -/
def conversion? : UInt8 → Option Conversion
  | 99 => some .char
  | 101 => some .error
  | 115 => some .string
  | 100 => some .decimal
  | 117 => some .unsigned
  | 111 => some .octal
  | 112 => some .pointer
  | 120 => some .hexadecimal
  | 37 => some .percent
  | _ => none

/-- The loop over the digits of a width or a precision. -/
def readPrecision (precision : BitVec 32) : List UInt8 → BitVec 32 × List UInt8
  | [] => (precision, [])
  | ch :: fmt =>
    if 48 ≤ ch ∧ ch ≤ 57 then readPrecision (precision * 10 + BitVec.ofNat 32 (ch.toNat - 48)) fmt
    else (precision, ch :: fmt)

/-- `process_precision` -/
def Escape.processPrecision (e : Escape) (precision : BitVec 32) : Escape :=
  if e.width.toInt < 0 then { e with width := precision, precision := -1 }
  else { e with precision }

theorem length_readPrecision (precision : BitVec 32) : ∀ fmt : List UInt8,
    (readPrecision precision fmt).2.length ≤ fmt.length
  | [] => le_rfl
  | ch :: fmt => by
    rw [readPrecision]
    split
    · exact (length_readPrecision _ fmt).trans (Nat.le_succ _)
    · exact le_rfl

/-- From `reswitch` on, up to the conversion; what follows it is returned with it. -/
def readEscape (e : Escape) (ap : VaList) :
    List UInt8 → Escape × VaList × Option Conversion × List UInt8
  | [] => (e, ap, none, [])
  | 45 :: fmt => readEscape { e with padc := 45 } ap fmt
  | 48 :: fmt => readEscape { e with padc := 48 } ap fmt
  | 42 :: fmt => readEscape (e.processPrecision (ap 0).int) ap.next fmt
  | 46 :: fmt => readEscape (if e.width.toInt < 0 then { e with width := 0 } else e) ap fmt
  | 35 :: fmt => readEscape { e with altflag := true } ap fmt
  | 108 :: fmt => readEscape { e with lflag := e.lflag + 1 } ap fmt
  | ch :: fmt =>
    if 49 ≤ ch ∧ ch ≤ 57 then
      let digits := readPrecision (BitVec.ofNat 32 (ch.toNat - 48)) fmt
      readEscape (e.processPrecision digits.1) ap digits.2
    else (e, ap, conversion? ch, fmt)
  termination_by fmt => fmt.length
  decreasing_by
    all_goals simp only [List.length_cons]
    all_goals first
      | omega
      | exact Nat.lt_succ_of_le (length_readPrecision _ _)

/-! ## Output -/

section
variable {σ : Type} (putch : UInt8 → σ → σ)

/-- A loop that puts `n` times the same character. -/
def putLoop (c : UInt8) : ℕ → σ → σ
  | 0, s => s
  | n + 1, s => putLoop c n (putch c s)

/-- `"0123456789abcdef"[mod]` -/
def digitChar (mod : ℕ) : UInt8 := (ascii "0123456789abcdef").getD mod 0

/-- `printnum`; no number has more than 64 digits. -/
def printnumLoop (base : ℕ) (padc : UInt8) : ℕ → ℕ → BitVec 32 → σ → σ
  | 0, _, _, s => s
  | n + 1, num, width, s =>
    putch (digitChar (num % base))
      (if base ≤ num then printnumLoop base padc n (num / base) (width - 1) s
      else putLoop putch padc (width - 1).toInt.toNat s)

def printnum (num : BitVec 64) (base : ℕ) (width : BitVec 32) (padc : UInt8) (s : σ) : σ :=
  printnumLoop putch base padc 64 num.toNat width s

/-- The loop over the characters of a string; the width that is left is returned. -/
def putString (altflag : Bool) : List UInt8 → BitVec 32 → BitVec 32 → σ → BitVec 32 × σ
  | [], _, width, s => (width, s)
  | ch :: p, precision, width, s =>
    if precision.toInt < 0 ∨ 0 ≤ (precision - 1).toInt then
      putString altflag p (if precision.toInt < 0 then precision else precision - 1) (width - 1)
        (putch (if altflag = true ∧ (ch < 32 ∨ 126 < ch) then 63 else ch) s)
    else (width, s)

/-- `strnlen(p, precision)` -/
def strnlen (text : List UInt8) (precision : BitVec 32) : ℕ :=
  min text.length (precision.signExtend 64).toNat

/-- The padding in front of a string; the width that is left is returned. -/
def padString (e : Escape) (text : List UInt8) (s : σ) : BitVec 32 × σ :=
  if 0 < e.width.toInt ∧ e.padc ≠ 45 then
    let width := e.width - BitVec.ofNat 32 (strnlen text e.precision)
    (if 0 < width.toInt then 0 else width, putLoop putch e.padc width.toInt.toNat s)
  else (e.width, s)

/-- `case 's'` -/
def printString (e : Escape) (text : List UInt8) (s : σ) : σ :=
  let (width, s) := padString putch e text s
  let (width, s) := putString putch e.altflag text e.precision width s
  putLoop putch 32 width.toInt.toNat s

/-- `case 'e'` -/
def printError (printfmt : List UInt8 → VaList → σ → Option σ) (err : BitVec 32) (s : σ) :
    Option σ :=
  let err := if err.toInt < 0 then -err else err
  if maxError < err.toInt then printfmt (ascii "error %d") (fun _ => ⟨err.signExtend 64, []⟩) s
  else if err.toInt < 0 then none
  else match errorString err.toNat with
    | none => printfmt (ascii "error %d") (fun _ => ⟨err.signExtend 64, []⟩) s
    | some p => printfmt (ascii "%s") (fun _ => ⟨1, p⟩) s

/-- The conversions of the `switch`. -/
def convert (printfmt : List UInt8 → VaList → σ → Option σ) (e : Escape) (ap : VaList) (s : σ) :
    Conversion → Option (VaList × σ)
  | .char => some (ap.next, putch (UInt8.ofNat (ap 0).int.toNat) s)
  | .error => (printError printfmt (ap 0).int s).map fun s => (ap.next, s)
  | .string =>
    some (ap.next, printString putch e (if (ap 0).word = 0 then ascii "(null)" else (ap 0).text) s)
  | .decimal =>
    let num := getint (ap 0) e.lflag
    some (ap.next, if num.toInt < 0 then printnum putch (-num) 10 e.width e.padc (putch 45 s)
      else printnum putch num 10 e.width e.padc s)
  | .unsigned => some (ap.next, printnum putch (getuint (ap 0) e.lflag) 10 e.width e.padc s)
  | .octal => some (ap.next, printnum putch (getuint (ap 0) e.lflag) 8 e.width e.padc s)
  | .pointer =>
    some (ap.next, printnum putch (ap 0).word 16 e.width e.padc (putch 120 (putch 48 s)))
  | .hexadecimal => some (ap.next, printnum putch (getuint (ap 0) e.lflag) 16 e.width e.padc s)
  | .percent => some (ap, putch 37 s)

end

/-! ## The format -/

theorem length_readEscape (e : Escape) (ap : VaList) (fmt : List UInt8) :
    (readEscape e ap fmt).2.2.2.length ≤ fmt.length := by
  fun_induction readEscape e ap fmt with
  | case1 => exact le_rfl
  | case2 _ _ fmt ih => exact ih.trans (Nat.le_succ _)
  | case3 _ _ fmt ih => exact ih.trans (Nat.le_succ _)
  | case4 _ _ fmt ih => exact ih.trans (Nat.le_succ _)
  | case5 _ _ fmt ih => exact ih.trans (Nat.le_succ _)
  | case6 _ _ fmt ih => exact ih.trans (Nat.le_succ _)
  | case7 _ _ fmt ih => exact ih.trans (Nat.le_succ _)
  | case8 _ _ ch fmt _ _ _ _ _ _ _ digits ih =>
    exact ih.trans ((length_readPrecision _ _).trans (Nat.le_succ _))
  | case9 => exact Nat.le_succ _

section
variable {σ : Type} (putch : UInt8 → σ → σ)

/-- The loop of `vprintfmt`.  For a conversion that is not recognized `fmt` goes back to behind the
    `%`, which is put. -/
def vprintfmtLoop (printfmt : List UInt8 → VaList → σ → Option σ) :
    List UInt8 → VaList → σ → Option σ
  | [], _, s => some s
  | ch :: fmt, ap, s =>
    if ch ≠ 37 then vprintfmtLoop printfmt fmt ap (putch ch s)
    else
      match _h : readEscape ⟨32, -1, -1, 0, false⟩ ap fmt with
      | (e, ap', some c, rest) =>
        (convert putch printfmt e ap' s c).bind fun r => vprintfmtLoop printfmt rest r.1 r.2
      | (_, ap, none, _) => vprintfmtLoop printfmt fmt ap (putch 37 s)
  termination_by fmt => fmt.length
  decreasing_by
    · exact Nat.lt_succ_self _
    · have hlen := length_readEscape ⟨32, -1, -1, 0, false⟩ ap fmt
      rw [_h] at hlen
      exact Nat.lt_succ_of_le hlen
    · exact Nat.lt_succ_self _

/-- `vprintfmt`; the formats that are given to `printfmt` have no `%e`. -/
def vprintfmt : List UInt8 → VaList → σ → Option σ :=
  vprintfmtLoop putch (vprintfmtLoop putch fun _ _ _ => none)

end

/-! ## What is put does not depend on `putch` -/

section
variable {σ τ : Type} {putch : UInt8 → σ → σ} {putch' : UInt8 → τ → τ} {f : σ → τ}
  (hf : ∀ c s, f (putch c s) = putch' c (f s))
include hf

theorem putLoop_hom (c : UInt8) : ∀ (n : ℕ) (s : σ),
    f (putLoop putch c n s) = putLoop putch' c n (f s)
  | 0, _ => rfl
  | n + 1, s => by rw [putLoop, putLoop_hom c n, hf, putLoop]

theorem printnumLoop_hom (base : ℕ) (padc : UInt8) : ∀ (n num : ℕ) (width : BitVec 32) (s : σ),
    f (printnumLoop putch base padc n num width s) = printnumLoop putch' base padc n num width (f s)
  | 0, _, _, _ => rfl
  | n + 1, num, width, s => by
    rw [printnumLoop, hf, printnumLoop]
    split
    · rw [printnumLoop_hom base padc n]
    · rw [putLoop_hom hf]

theorem printnum_hom (num : BitVec 64) (base : ℕ) (width : BitVec 32) (padc : UInt8) (s : σ) :
    f (printnum putch num base width padc s) = printnum putch' num base width padc (f s) :=
  printnumLoop_hom hf ..

theorem putString_hom (altflag : Bool) : ∀ (p : List UInt8) (precision width : BitVec 32) (s : σ),
    putString putch' altflag p precision width (f s) =
      ((putString putch altflag p precision width s).1,
        f (putString putch altflag p precision width s).2)
  | [], _, _, _ => rfl
  | ch :: p, precision, width, s => by
    rw [putString, putString]
    split
    · rw [← hf, putString_hom altflag p]
    · rfl

theorem padString_hom (e : Escape) (text : List UInt8) (s : σ) :
    padString putch' e text (f s) =
      ((padString putch e text s).1, f (padString putch e text s).2) := by
  unfold padString
  split
  · simp only [putLoop_hom hf]
  · rfl

theorem printString_hom (e : Escape) (text : List UInt8) (s : σ) :
    f (printString putch e text s) = printString putch' e text (f s) := by
  simp only [printString, padString_hom hf, putString_hom hf, putLoop_hom hf]

section
variable {pf : List UInt8 → VaList → σ → Option σ} {pf' : List UInt8 → VaList → τ → Option τ}
  (hpf : ∀ fmt ap s, (pf fmt ap s).map f = pf' fmt ap (f s))
include hpf

omit hf in
theorem printError_hom (err : BitVec 32) (s : σ) :
    (printError pf err s).map f = printError pf' err (f s) := by
  unfold printError
  dsimp only
  generalize (if err.toInt < 0 then -err else err) = err
  split
  · exact hpf ..
  · split
    · rfl
    · split
      · exact hpf ..
      · exact hpf ..

/-- No conversion looks at the state. -/
theorem convert_hom (e : Escape) (ap : VaList) (s : σ) (c : Conversion) :
    (convert putch pf e ap s c).map (Prod.map id f) = convert putch' pf' e ap (f s) c := by
  cases c with
  | char => simp [convert, hf]
  | error =>
    rw [convert, convert, ← printError_hom hpf, Option.map_map, Option.map_map]
    rfl
  | string => simp [convert, printString_hom hf]
  | decimal =>
    rw [convert, convert]
    split
    · simp [printnum_hom hf, hf]
    · simp [printnum_hom hf]
  | unsigned => simp [convert, printnum_hom hf]
  | octal => simp [convert, printnum_hom hf]
  | pointer => simp [convert, printnum_hom hf, hf]
  | hexadecimal => simp [convert, printnum_hom hf]
  | percent => simp [convert, hf]

theorem vprintfmtLoop_hom (fmt : List UInt8) (ap : VaList) (s : σ) :
    (vprintfmtLoop putch pf fmt ap s).map f = vprintfmtLoop putch' pf' fmt ap (f s) := by
  induction hn : fmt.length using Nat.strong_induction_on generalizing fmt ap s with
  | h n ih =>
    subst hn
    cases fmt with
    | nil => rw [vprintfmtLoop, vprintfmtLoop, Option.map_some]
    | cons ch fmt =>
      rw [vprintfmtLoop, vprintfmtLoop]
      split
      · rw [← hf]
        exact ih _ (Nat.lt_succ_self _) _ _ _ rfl
      · split
        · rename_i e ap' c rest he
          have hlen := length_readEscape ⟨32, -1, -1, 0, false⟩ ap fmt
          rw [he] at hlen
          rw [← convert_hom hf hpf]
          cases convert putch pf e ap' s c with
          | none => rfl
          | some r => exact ih _ (Nat.lt_succ_of_le hlen) _ _ _ rfl
        · rw [← hf]
          exact ih _ (Nat.lt_succ_self _) _ _ _ rfl

end

/-- **`vprintfmt`** puts the same characters, whatever `putch` does with them. -/
theorem vprintfmt_hom (fmt : List UInt8) (ap : VaList) (s : σ) :
    (vprintfmt putch fmt ap s).map f = vprintfmt putch' fmt ap (f s) :=
  vprintfmtLoop_hom hf (fun fmt ap s => vprintfmtLoop_hom hf (fun _ _ _ => rfl) fmt ap s) fmt ap s

end

/-- A `putch` that keeps the characters. -/
def emit (c : UInt8) (text : List UInt8) : List UInt8 := text ++ [c]

/-- **The characters that `vprintfmt` makes** are put one after the other. -/
theorem vprintfmt_eq_emit {σ : Type} (putch : UInt8 → σ → σ) (fmt : List UInt8) (ap : VaList)
    (s : σ) : vprintfmt putch fmt ap s =
      (vprintfmt emit fmt ap []).map fun text => text.foldl (fun s c => putch c s) s := by
  refine (vprintfmt_hom (f := fun text => text.foldl (fun s c => putch c s) s) (fun c text => ?_)
    fmt ap []).symm
  rw [emit, List.foldl_append]
  rfl

end Ucore
