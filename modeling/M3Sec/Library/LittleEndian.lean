import Mathlib.Algebra.GroupWithZero.Nat

/-! # Little-endian numbers

A number that fits into so many bytes is read back from its bytes.
-/

namespace LittleEndian

def bytes : (n x : ℕ) → List UInt8
  | 0, _ => []
  | n + 1, x => UInt8.ofNat x :: bytes n (x / 256)

def value : List UInt8 → ℕ
  | [] => 0
  | b :: bs => b.toNat + 256 * value bs

variable {n x : ℕ}

@[simp] theorem length_bytes : (bytes n x).length = n := by
  induction n generalizing x with
  | zero => rfl
  | succ n ih => rw [bytes, List.length_cons, ih]

theorem value_bytes (h : x < 256 ^ n) : value (bytes n x) = x := by
  induction n generalizing x with
  | zero => exact (Nat.lt_one_iff.mp h).symm
  | succ n ih =>
    have hdiv : x / 256 < 256 ^ n := by
      rw [Nat.pow_succ] at h
      omega
    rw [bytes, value, ih hdiv, UInt8.toNat_ofNat']
    omega

end LittleEndian
