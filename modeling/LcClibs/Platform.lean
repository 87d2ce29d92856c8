import Mathlib

namespace LcClibs.Platform

/-- What a step of the program can do that C leaves undefined. -/
inductive Fault
  | readOutside (offset : Nat)
  | writeOutside (offset : Nat)
  | nullDeref
  deriving DecidableEq, Repr

/-- Conversion to `uint` (and `uint32`). -/
def uint (n : Nat) : Nat := n % 2 ^ 32

/-- Subtraction of two `uint` values, which wraps around. -/
def uintSub (a b : Nat) : Nat := uint (a + 2 ^ 32 - b)

def uint64 (n : Nat) : Nat := n % 2 ^ 64

/-- Conversion to `int` (and `int32`), two's complement. -/
def int32 (z : Int) : Int := z.bmod (2 ^ 32)

def int64 (z : Int) : Int := z.bmod (2 ^ 64)

theorem uint_of_lt {n : Nat} (h : n < 2 ^ 32) : uint n = n := Nat.mod_eq_of_lt h

theorem uint_lt (n : Nat) : uint n < 2 ^ 32 := Nat.mod_lt _ (by decide)

theorem uint_le (n : Nat) : uint n ≤ n := Nat.mod_le _ _

theorem uintSub_of_le {a b : Nat} (h : b ≤ a) (ha : a < 2 ^ 32) : uintSub a b = a - b := by
  unfold uintSub uint
  omega

theorem uint64_of_lt {n : Nat} (h : n < 2 ^ 64) : uint64 n = n := Nat.mod_eq_of_lt h

theorem int32_of_range {z : Int} (h : -2 ^ 31 ≤ z) (h' : z < 2 ^ 31) : int32 z = z := by
  rw [int32, Int.bmod_eq_of_le] <;> omega

theorem int64_of_range {z : Int} (h : -2 ^ 63 ≤ z) (h' : z < 2 ^ 63) : int64 z = z := by
  rw [int64, Int.bmod_eq_of_le] <;> omega

/-- The bytes of a C string literal, without the closing NUL. -/
def cstr (s : String) : List UInt8 := s.toList.map fun c => UInt8.ofNat c.toNat

end LcClibs.Platform
