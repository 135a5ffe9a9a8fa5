import Mathlib

/-!
Numbers as little-endian byte strings: `leBytes n v` is the `n` bytes of `v`, least
significant first, as a copy of a machine integer out of memory gives them on a little-endian
host, and `leValue` reads them back. `leValue_leBytes` is the round trip, for a value that fits.
-/

namespace Motr

/-- The `n` low bytes of `v`, least significant first. -/
def leBytes : ℕ → ℕ → List UInt8
  | 0, _ => []
  | n + 1, v => (v % 256).toUInt8 :: leBytes n (v / 256)

/-- The number a little-endian byte string stands for. -/
def leValue : List UInt8 → ℕ
  | [] => 0
  | b :: bs => b.toNat + 256 * leValue bs

@[simp] lemma length_leBytes (n v : ℕ) : (leBytes n v).length = n := by
  induction n generalizing v with
  | zero => rfl
  | succ n ih => simp [leBytes, ih]

lemma leValue_leBytes_mod (n v : ℕ) : leValue (leBytes n v) = v % 2 ^ (8 * n) := by
  induction n generalizing v with
  | zero => simp [leBytes, leValue, Nat.mod_one]
  | succ n ih =>
    have hbyte : ((v % 256).toUInt8).toNat = v % 256 :=
      UInt8.toNat_ofNat_of_lt (Nat.mod_lt _ (by norm_num))
    rw [leBytes, leValue, ih, hbyte, show 8 * (n + 1) = 8 + 8 * n by ring, pow_add,
      show (2 : ℕ) ^ 8 = 256 by norm_num, Nat.mod_mul]

/-- The `n` bytes of a value are those of its residue modulo `2^(8n)`. -/
lemma leBytes_mod (n v : ℕ) : leBytes n (v % 2 ^ (8 * n)) = leBytes n v := by
  induction n generalizing v with
  | zero => rfl
  | succ n ih =>
    have hpow : 2 ^ (8 * (n + 1)) = 256 * 2 ^ (8 * n) := by
      rw [show 8 * (n + 1) = 8 + 8 * n by ring, pow_add]
      norm_num
    rw [leBytes, leBytes, hpow, Nat.mod_mul_right_div_self, ih,
      Nat.mod_mul_right_mod]

/-- A value below `2^(8n)` comes back from its `n` bytes. -/
lemma leValue_leBytes {n v : ℕ} (h : v < 2 ^ (8 * n)) : leValue (leBytes n v) = v := by
  rw [leValue_leBytes_mod, Nat.mod_eq_of_lt h]

end Motr
