/-
  `vsnprintf` of `libs/printfmt.c`.

  The format and the strings that are printed do not lie in the buffer.

  * `SprintBuf.Holds`: what the buffer holds after some characters;
  * `vsnprintf_truncates`: as many characters as fit, and a NUL; the number of all characters is
    returned.
-/
import Ucore.Lib.Bytes
import Ucore.Libs.Error
import Ucore.Libs.Printfmt

namespace Ucore

/-! ## The code -/

/-- `struct sprintbuf`, with the memory. -/
structure SprintBuf where
  mem : Bytes
  buf : ℕ
  ebuf : ℕ
  cnt : BitVec 32

def sprintputch (ch : UInt8) (b : SprintBuf) : SprintBuf :=
  if b.buf < b.ebuf then
    { b with cnt := b.cnt + 1, mem := b.mem.fill b.buf ch 1, buf := b.buf + 1 }
  else { b with cnt := b.cnt + 1 }

/-- `vsnprintf`; returns the memory with the result. -/
def vsnprintf (str size : ℕ) (fmt : List UInt8) (ap : VaList) (mem : Bytes) :
    Option (Except Errno (BitVec 32) × Bytes) :=
  let b : SprintBuf := ⟨mem, str, (str + size + (2 ^ 64 - 1)) % 2 ^ 64, 0⟩
  if str = 0 ∨ b.ebuf < b.buf then some (.error .inval, mem)
  else (vprintfmt sprintputch fmt ap b).map fun b => (.ok b.cnt, b.mem.fill b.buf 0 1)

/-! ## The buffer -/

variable {str size : ℕ} {fmt text : List UInt8} {ap : VaList} {mem : Bytes} {b : SprintBuf}
  {c : UInt8}

/-- The buffer of `size` bytes at `str` after the characters `text`. -/
structure SprintBuf.Holds (str size : ℕ) (mem : Bytes) (text : List UInt8) (b : SprintBuf) :
    Prop where
  cnt : b.cnt = BitVec.ofNat 32 text.length
  buf : b.buf = str + min text.length (size - 1)
  ebuf : b.ebuf = str + (size - 1)
  chars : ∀ j c, (text.take (size - 1))[j]? = some c → b.mem (str + j) = c
  frame : ∀ j, j < str ∨ str + min text.length (size - 1) ≤ j → b.mem j = mem j

theorem SprintBuf.Holds.putch (h : b.Holds str size mem text) (c : UInt8) :
    (sprintputch c b).Holds str size mem (text ++ [c]) := by
  have hbuf := h.buf
  have hebuf := h.ebuf
  have hcnt : b.cnt + 1 = BitVec.ofNat 32 (text ++ [c]).length := by
    rw [h.cnt, List.length_append, List.length_singleton, BitVec.ofNat_add]
    rfl
  unfold sprintputch
  by_cases hlt : text.length < size - 1
  · have hmin : min text.length (size - 1) = text.length := Nat.min_eq_left hlt.le
    have hmin' : min (text ++ [c]).length (size - 1) = text.length + 1 := by
      rw [List.length_append, List.length_singleton]
      exact Nat.min_eq_left hlt
    rw [hmin] at hbuf
    rw [if_pos (by omega)]
    refine ⟨hcnt, ?_, hebuf, fun j d hj => ?_, fun j hj => ?_⟩
    · rw [hmin']
      dsimp only
      omega
    · rw [List.take_of_length_le (by simp; omega)] at hj
      obtain hjl | hjl := Nat.lt_or_ge j text.length
      · rw [List.getElem?_append_left hjl] at hj
        dsimp only
        rw [Bytes.fill, Bytes.copy_of_not_mem (by omega)]
        refine h.chars j d ?_
        rwa [List.take_of_length_le hlt.le]
      · rw [List.getElem?_append_right hjl] at hj
        have hj' := (List.getElem?_eq_some_iff.1 hj).1
        rw [List.length_singleton] at hj'
        have h0 : j - text.length = 0 := by omega
        rw [h0] at hj
        dsimp only
        rw [Bytes.fill, Bytes.copy_of_mem (by omega) (by omega)]
        exact Option.some.inj hj
    · rw [hmin'] at hj
      dsimp only
      rw [Bytes.fill, Bytes.copy_of_not_mem (by omega)]
      refine h.frame j ?_
      rw [hmin]
      omega
  · have hmin : min text.length (size - 1) = size - 1 := Nat.min_eq_right (by omega)
    have hmin' : min (text ++ [c]).length (size - 1) = size - 1 := by
      rw [List.length_append, List.length_singleton]
      exact Nat.min_eq_right (by omega)
    rw [hmin] at hbuf
    rw [if_neg (by omega)]
    refine ⟨hcnt, by rw [hmin']; exact hbuf, hebuf, fun j d hj => ?_, fun j hj => ?_⟩
    · rw [List.take_append_of_le_length (by omega)] at hj
      exact h.chars j d hj
    · rw [hmin'] at hj
      rw [← hmin] at hj
      exact h.frame j hj

theorem SprintBuf.holds_foldl (h : b.Holds str size mem []) : ∀ text : List UInt8,
    (text.foldl (fun b c => sprintputch c b) b).Holds str size mem text := by
  intro text
  induction text using List.reverseRecOn with
  | nil => exact h
  | append_singleton text c ih =>
    rw [List.foldl_append]
    exact ih.putch c

/-- **Truncation.** `vsnprintf` writes the first `size - 1` of the characters that `vprintfmt`
makes, or all if there are fewer, and a NUL behind them; it writes nothing else, and returns the
number of all characters.  So what it writes for a smaller size is the start of what it writes for a
greater one. -/
theorem vsnprintf_truncates (h : vprintfmt emit fmt ap [] = some text) :
    (∀ str size mem, str ≠ 0 → 0 < size → str + size ≤ 2 ^ 64 →
      ∃ mem', vsnprintf str size fmt ap mem = some (.ok (BitVec.ofNat 32 text.length), mem') ∧
        (text.length < 2 ^ 31 → (BitVec.ofNat 32 text.length).toInt = text.length) ∧
        (∀ j c, (text.take (size - 1) ++ [0])[j]? = some c → mem' (str + j) = c) ∧
        (∀ j, j < str ∨ str + min text.length (size - 1) < j → mem' j = mem j)) ∧
    ∀ size size', size ≤ size' → text.take (size - 1) <+: text.take (size' - 1) := by
  refine ⟨fun str size mem hstr hsize hwrap => ?_, fun size size' hle => ?_⟩
  · have hebuf : (str + size + (2 ^ 64 - 1)) % 2 ^ 64 = str + (size - 1) := by omega
    have hstart : SprintBuf.Holds str size mem [] ⟨mem, str, str + (size - 1), 0⟩ :=
      ⟨rfl, by simp, rfl, fun j c hj => by simp at hj, fun _ _ => rfl⟩
    have hend := SprintBuf.holds_foldl hstart text
    obtain ⟨b, hb⟩ : ∃ b,
        text.foldl (fun b c => sprintputch c b) ⟨mem, str, str + (size - 1), 0⟩ = b := ⟨_, rfl⟩
    rw [hb] at hend
    refine ⟨b.mem.fill b.buf 0 1, ?_, fun hlen => ?_, fun j c hj => ?_, fun j hj => ?_⟩
    · rw [vsnprintf, hebuf]
      dsimp only
      rw [if_neg (by omega), vprintfmt_eq_emit, h, Option.map_some, Option.map_some, hb, hend.cnt]
    · rw [BitVec.toInt_ofNat', Int.bmod_def]
      omega
    · have hlen : (text.take (size - 1)).length = min text.length (size - 1) := by
        rw [List.length_take, Nat.min_comm]
      have hbuf := hend.buf
      obtain hjl | hjl := Nat.lt_or_ge j (text.take (size - 1)).length
      · rw [List.getElem?_append_left hjl] at hj
        rw [Bytes.fill, Bytes.copy_of_not_mem (by omega)]
        exact hend.chars j c hj
      · rw [List.getElem?_append_right hjl] at hj
        have hj' := (List.getElem?_eq_some_iff.1 hj).1
        rw [List.length_singleton] at hj'
        have h0 : j - (text.take (size - 1)).length = 0 := by omega
        rw [h0] at hj
        rw [Bytes.fill, Bytes.copy_of_mem (by omega) (by omega)]
        exact Option.some.inj hj
    · have hbuf := hend.buf
      rw [Bytes.fill, Bytes.copy_of_not_mem (by omega)]
      exact hend.frame j (by omega)
  · exact List.take_prefix_take_left (by omega)

theorem vsnprintf_truncates_abc :
    vprintfmt emit (ascii "abc") (fun _ => ⟨0, []⟩) [] = some (ascii "abc") ∧
      ∃ mem', vsnprintf 4096 3 (ascii "abc") (fun _ => ⟨0, []⟩) (fun _ => 1) =
          some (.ok (BitVec.ofNat 32 (ascii "abc").length), mem') ∧
        (∀ j c, ((ascii "abc").take (3 - 1) ++ [0])[j]? = some c → mem' (4096 + j) = c) := by
  have h : vprintfmt emit (ascii "abc") (fun _ => ⟨0, []⟩) [] = some (ascii "abc") := by
    rw [show ascii "abc" = [97, 98, 99] from rfl]
    simp [vprintfmt, vprintfmtLoop, emit]
  obtain ⟨mem', hret, -, htext, -⟩ :=
    (vsnprintf_truncates h).1 4096 3 (fun _ => 1) (by decide) (by decide) (by decide)
  exact ⟨h, mem', hret, htext⟩

end Ucore
