/-
  `libs/hash.c`.
-/
import Mathlib.Data.Nat.Init
import Mathlib.Tactic.NormNum

namespace Ucore

def goldenRatioPrime32 : ℕ := 0x9e370001

/-- A hash value below `2 ^ bits`. -/
def hash32 (val bits : ℕ) : ℕ := (val * goldenRatioPrime32 % 2 ^ 32) >>> (32 - bits)

theorem hash32_lt (val : ℕ) {bits : ℕ} (hb : bits ≤ 32) : hash32 val bits < 2 ^ bits := by
  have h : val * goldenRatioPrime32 % 2 ^ 32 < 2 ^ 32 := Nat.mod_lt _ (by norm_num)
  rw [hash32, Nat.shiftRight_eq_div_pow, Nat.div_lt_iff_lt_mul (by positivity), ← pow_add]
  rwa [Nat.add_sub_cancel' hb]

end Ucore
